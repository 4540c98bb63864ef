import Tvntd.Cpptype.LruLock
import Tvntd.Crypto.Client

/-! # The two forms of an operation

Where the function given to an asynchronous operation is called once, with what
the synchronous operation returns from the same client and the same replies.
-/

namespace Tvntd

open Proto3 (Bytes)

namespace Crypto

variable {self after : Crypto} {uuid ver keyVer : Key64} {key : Bytes}

/-! ## What the cache takes -/

/-- The users always have a user for a caller that gets an answer. -/
theorem lookup_some {fresh : Obj} {users next : LruTable DHashObj} {found : Option Obj}
    (ran : LruTable.exec (lookup fresh uuid) users = (.ok found, next)) :
    ∃ user, found = some user := by
  have returns : (LruTable.exec (lookup fresh uuid) users).1.isOk := by
    rw [ran]
    rfl
  have free : users.mLock.held = false := LruTable.free_of_isOk returns
  unfold lookup LruTable.lookupWith at ran
  cases looked : userIndex.lookup64 users.mHash uuid with
  | none =>
      rw [LruTable.exec_search_none free looked] at ran
      cases ran
  | some result =>
      obtain ⟨answer, hash⟩ := result
      rw [LruTable.exec_search free looked] at ran
      cases answer with
      | some user =>
          cases ran
          exact ⟨user, rfl⟩
      | none =>
          dsimp only at ran
          rw [LruTable.exec_bind_of_ok _ LruTable.exec_countMiss, LruTable.exec_bind] at ran
          split at ran
          · cases ran
            exact ⟨fresh, rfl⟩
          · cases ran

private theorem getUser_some {found : Option Obj} (got : getUser uuid self = some (found, after)) :
    ∃ user, found = some user := by
  unfold getUser at got
  split at got
  · rename_i answer users ran
    obtain ⟨user, rfl⟩ := lookup_some ran
    refine ⟨user, ?_⟩
    split at got
    · cases got
      rfl
    · cases got
      rfl
  · cases got

/-- The users answer for a uuid with this user. -/
def Finds (self : Crypto) (uuid : Key64) (user : Obj) (after : Crypto) : Prop :=
  getUser uuid self = some (some user, after)

/-- The cache answers for a uuid. -/
def Serves (self : Crypto) (uuid : Key64) : Prop := ∃ user after, self.Finds uuid user after

/-- The cache takes a key: the user it finds has none under the version, and room for one, or has
the same key. -/
def Takes (self : Crypto) (uuid ver : Key64) (key : Bytes) : Prop :=
  ∃ user after, self.Finds uuid user after ∧ (after.objects user).Takes ver key

theorem getUser_none_of_not_serves (silent : ¬ self.Serves uuid) : getUser uuid self = none := by
  cases got : getUser uuid self with
  | none => rfl
  | some result =>
      obtain ⟨found, after⟩ := result
      obtain ⟨user, rfl⟩ := getUser_some got
      exact absurd ⟨user, after, got⟩ silent

theorem Finds.same {user other : Obj} {next : Crypto} (finds : self.Finds uuid user after)
    (again : self.Finds uuid other next) : other = user ∧ next = after := by
  unfold Finds at finds again
  rw [finds] at again
  cases again
  exact ⟨rfl, rfl⟩

/-- What an operation returns, apart from the client it leaves. -/
def outcome {α : Type} (op : ClientM α) (self : Crypto) : Option α := (op self).map Prod.fst

private theorem outcome_pure {α : Type} (value : α) :
    outcome (pure value : ClientM α) self = some value := rfl

private theorem outcome_bind {α β : Type} (op : ClientM α) (next : α → ClientM β) :
    outcome (op >>= next) self = (op self).bind fun result => outcome (next result.1) result.2 := by
  unfold outcome
  rw [bind_apply]
  cases op self with
  | none => rfl
  | some result => rfl

private theorem outcome_deref_bind {α β : Type} (pointer : Option α) (next : α → ClientM β) :
    outcome (deref pointer >>= next) self = pointer.bind fun value =>
      outcome (next value) self := by
  rw [outcome_bind, deref_apply]
  cases pointer with
  | none => rfl
  | some value => rfl

theorem outcome_check_bind {β : Type} (cond : Prop) [Decidable cond] (next : Unit → ClientM β) :
    outcome (check cond >>= next) self = if cond then outcome (next ()) self else none := by
  rw [outcome_bind, check_apply]
  by_cases holds : cond
  · rw [if_pos holds, if_pos holds]
    rfl
  · rw [if_neg holds, if_neg holds]
    rfl

/-- A put returns exactly where the cache takes the key. -/
theorem exists_putPublicKey_iff :
    (∃ after, putPublicKey uuid ver key self = some ((), after)) ↔ self.Takes uuid ver key := by
  constructor
  · intro put
    obtain ⟨after, put⟩ := put
    by_cases serves : self.Serves uuid
    · obtain ⟨user, found, finds⟩ := serves
      refine ⟨user, found, finds, UserCrypto.exists_putPublicKey_iff.mp ?_⟩
      unfold putPublicKey at put
      rw [bind_apply, finds, Option.bind_some] at put
      obtain ⟨next, changed, -⟩ := Option.map_eq_some_iff.mp put
      exact ⟨next, changed⟩
    · unfold putPublicKey at put
      rw [bind_apply, getUser_none_of_not_serves serves] at put
      cases put
  · intro takes
    obtain ⟨user, found, finds, takes⟩ := takes
    obtain ⟨next, changed⟩ := UserCrypto.exists_putPublicKey_iff.mpr takes
    refine ⟨{ found with objects := Function.update found.objects user next }, ?_⟩
    unfold putPublicKey
    rw [bind_apply, finds, Option.bind_some]
    exact Option.map_eq_some_iff.mpr ⟨next, changed, rfl⟩

private theorem outcome_putPublicKey_bind {β : Type} {next : Unit → ClientM β} {told : β}
    (constant : ∀ after, outcome (next ()) after = some told) :
    outcome (putPublicKey uuid ver key >>= next) self = some told ↔ self.Takes uuid ver key := by
  rw [outcome_bind, ← exists_putPublicKey_iff]
  cases put : putPublicKey uuid ver key self with
  | none => simp
  | some result =>
      obtain ⟨_, after⟩ := result
      rw [Option.bind_some, constant after]
      exact iff_of_true rfl ⟨after, rfl⟩

/-- What follows a put is not reached where the cache does not take the key. -/
theorem outcome_putPublicKey_ne {β : Type} {next : Unit → ClientM β}
    (refuses : ¬ self.Takes uuid ver key) :
    outcome (putPublicKey uuid ver key >>= next) self = none := by
  rw [outcome_bind]
  cases put : putPublicKey uuid ver key self with
  | none => rfl
  | some result => exact absurd (exists_putPublicKey_iff.mp ⟨result.2, put⟩) refuses

private theorem outcome_cachedPublicKey_bind {β : Type} {user : Obj} {held : Option Bytes}
    (next : Option Bytes → ClientM β) (finds : self.Finds uuid user after)
    (looked : (after.objects user).value ver = some held) :
    outcome (cachedPublicKey uuid ver >>= next) self = outcome (next held) after := by
  rw [outcome_bind, cachedPublicKey_eq finds looked, Option.bind_some]

private theorem outcome_cachedAllPubKeys_bind {β : Type} {user : Obj}
    (next : Option (List KeyVer) → ClientM β) (finds : self.Finds uuid user after) :
    outcome (cachedAllPubKeys uuid >>= next) self =
      outcome (next (some (after.objects user).getAllPubKeys)) after := by
  rw [outcome_bind, cachedAllPubKeys_eq finds, Option.bind_some]

private theorem outcome_cachedPublicKey_silent {β : Type} {next : Option Bytes → ClientM β}
    (silent : ¬ self.Serves uuid) : outcome (cachedPublicKey uuid ver >>= next) self = none := by
  have cached : cachedPublicKey uuid ver self = none := by
    unfold cachedPublicKey
    rw [bind_apply, getUser_none_of_not_serves silent]
    rfl
  rw [outcome_bind, cached, Option.bind_none]

private theorem outcome_cachedAllPubKeys_silent {β : Type} {next : Option (List KeyVer) → ClientM β}
    (silent : ¬ self.Serves uuid) : outcome (cachedAllPubKeys uuid >>= next) self = none := by
  have cached : cachedAllPubKeys uuid self = none := by
    unfold cachedAllPubKeys
    rw [bind_apply, getUser_none_of_not_serves silent]
    rfl
  rw [outcome_bind, cached, Option.bind_none]

/-! ## Both forms -/

/-- The operations that have two forms. -/
inductive Call where
  | genRsaKey (uuid keyVer : Key64)
  | putRsaKeypair (uuid kver : Key64) (pubKey privKey : Bytes)
  | getPublicKeys (uuid : Key64)
  | getRsaKey (uuid keyVer : Key64)
  | rsaSign (uuid keyVer : Key64) (mesg : Bytes)
  | rsaVerifySignature (uuid keyVer : Key64) (mesg signature : Bytes)

/-- The key of the first record of a reply. -/
def firstKey (resp : Option PubKeyResp) : Data :=
  .key (resp.bind fun resp => resp.pubKeys.head?.map Kdb.UserPubKey.pubKey)

/-- The hash and the signature of a reply. -/
def signedPart (resp : Option SignedMessage) : Data :=
  match resp with
  | some resp => .signed resp.mesgHash resp.signature
  | none => .signed [] []

section Forms

variable (lib : Protobuf) (ssl : OpenSsl) (server : KeyService)

def synchronous : Call → ClientM (Status × Data)
  | .genRsaKey uuid keyVer => genRsaKey lib server uuid keyVer
  | .putRsaKeypair uuid kver pubKey privKey => putRsaKeypair server uuid kver pubKey privKey
  | .getPublicKeys uuid => getPublicKeys server uuid
  | .getRsaKey uuid keyVer => getRsaKey lib server uuid keyVer
  | .rsaSign uuid keyVer mesg => rsaSign lib server uuid keyVer mesg
  | .rsaVerifySignature uuid keyVer mesg signature =>
      rsaVerifySignature lib ssl server uuid keyVer mesg signature

def asynchronous (later : KeyService) : Call → ClientM Calls
  | .genRsaKey uuid keyVer => genRsaKeyAsync server uuid keyVer (recorded firstKey)
  | .putRsaKeypair uuid kver pubKey privKey =>
      putRsaKeypairAsync server uuid kver pubKey privKey (recorded fun _ => .nothing)
  | .getPublicKeys uuid =>
      getPublicKeysAsync server uuid (recorded fun krec => .keys (krec.getD []))
  | .getRsaKey uuid keyVer => getRsaKeyAsync server uuid keyVer (recorded firstKey)
  | .rsaSign uuid keyVer mesg => rsaSignAsync server uuid keyVer mesg (recorded signedPart)
  | .rsaVerifySignature uuid keyVer mesg signature =>
      rsaVerifySignatureAsync lib ssl server later uuid keyVer mesg signature
        (recorded fun given => .verified given.1 given.2)

/-- The function is called once, with the status and the data of the synchronous operation. -/
def Agrees (later : KeyService) (self : Crypto) (call : Call) : Prop :=
  ∃ told, outcome (synchronous lib ssl server call) self = some told ∧
    outcome (asynchronous lib ssl server later call) self = some [told]

/-- The key of a record is put under the uuid and version of the request by one form and under
those of the record by the other. -/
def TakesBoth (self : Crypto) (uuid ver : Key64) (keyRec : Kdb.UserPubKey) : Prop :=
  (lib.release keyRec.pubKey).isSome ∧ self.Takes uuid ver keyRec.pubKey ∧
    self.Takes keyRec.uuid keyRec.keyVersion keyRec.pubKey

/-- When the two forms agree. -/
def AgreesWhen (self : Crypto) : Call → Prop
  | .genRsaKey uuid keyVer =>
      ∀ out keyRec, server.generateKey ⟨uuid, keyVer, 0⟩ = some out →
        out.pubKeys.head? = some keyRec → TakesBoth lib self uuid keyRec.keyVersion keyRec
  | .putRsaKeypair _ _ _ _ => False
  | .getPublicKeys uuid => self.Serves uuid
  | .getRsaKey uuid keyVer =>
      ∃ user after, self.Finds uuid user after ∧
        ((after.objects user).value keyVer = some none →
          ∀ out, server.queryPubKey ⟨uuid, keyVer, 0⟩ = some out →
            ∃ keyRec, out.pubKeys.head? = some keyRec ∧ TakesBoth lib after uuid keyVer keyRec)
  | .rsaSign uuid keyVer mesg =>
      ∀ out, server.signMesg (signReqt uuid keyVer mesg) = some out →
        out.uuid = uuid ∧ (lib.release out.mesgHash = none → out.signature = [])
  | .rsaVerifySignature _ _ _ _ => False

end Forms

variable {lib : Protobuf} {ssl : OpenSsl} {server later : KeyService} {mesg signature : Bytes}

/-- The synchronous end of a reply with a record. -/
theorem outcome_keptKey {told : Status × Data} :
    outcome (do
      let pubKey ← deref (lib.release key)
      putPublicKey uuid ver pubKey
      return (Status.ok, Data.key (some pubKey))) self = some told ↔
        told = (.ok, .key (some key)) ∧ (lib.release key).isSome ∧ self.Takes uuid ver key := by
  rw [outcome_deref_bind]
  cases given : lib.release key with
  | none => simp
  | some pubKey =>
      have same : pubKey = key :=
        Option.some.inj (given.symm.trans (Protobuf.release_of_isSome (by rw [given]; rfl)))
      subst same
      rw [Option.bind_some]
      by_cases takes : self.Takes uuid ver pubKey
      · rw [(outcome_putPublicKey_bind fun _ => rfl).mpr takes, Option.some.injEq]
        exact ⟨fun same => ⟨same.symm, rfl, takes⟩, fun given => given.1.symm⟩
      · rw [outcome_putPublicKey_ne takes]
        exact iff_of_false nofun fun given => takes given.2.2

/-- The asynchronous end of a reply with a record. -/
theorem outcome_givenKey {resp : PubKeyResp} {keyRec : Kdb.UserPubKey}
    (first : resp.pubKeys.head? = some keyRec) {calls : Calls} :
    outcome (do
      genRsaKeyCallback resp
      recorded firstKey .ok (some resp)) self = some calls ↔
        calls = [(.ok, .key (some keyRec.pubKey))] ∧
          self.Takes keyRec.uuid keyRec.keyVersion keyRec.pubKey := by
  have puts : genRsaKeyCallback resp =
      putPublicKey keyRec.uuid keyRec.keyVersion keyRec.pubKey := by
    obtain ⟨rest, same⟩ := List.head?_eq_some_iff.mp first
    unfold genRsaKeyCallback
    rw [same]
  have tells : ∀ after, outcome (recorded firstKey .ok (some resp)) after =
      some [(Status.ok, Data.key (some keyRec.pubKey))] := by
    intro after
    refine (outcome_pure _).trans ?_
    rw [firstKey, Option.bind_some, first, Option.map_some]
  rw [puts]
  by_cases takes : self.Takes keyRec.uuid keyRec.keyVersion keyRec.pubKey
  · rw [(outcome_putPublicKey_bind tells).mpr takes, Option.some.injEq]
    exact ⟨fun same => ⟨same.symm, takes⟩, fun given => given.1.symm⟩
  · rw [outcome_putPublicKey_ne takes]
    exact iff_of_false nofun fun given => takes given.2

/-- The two ends of a reply with a record agree where both puts return. -/
theorem agree_on_key {resp : PubKeyResp} {keyRec : Kdb.UserPubKey}
    (first : resp.pubKeys.head? = some keyRec) :
    (∃ told, outcome (do
        let pubKey ← deref (lib.release keyRec.pubKey)
        putPublicKey uuid ver pubKey
        return (Status.ok, Data.key (some pubKey))) self = some told ∧
      outcome (do
        genRsaKeyCallback resp
        recorded firstKey .ok (some resp)) self = some [told]) ↔
      TakesBoth lib self uuid ver keyRec := by
  constructor
  · intro agrees
    obtain ⟨told, kept, given⟩ := agrees
    obtain ⟨-, released, takes⟩ := outcome_keptKey.mp kept
    exact ⟨released, takes, ((outcome_givenKey first).mp given).2⟩
  · intro takes
    obtain ⟨released, own, other⟩ := takes
    exact ⟨_, outcome_keptKey.mpr ⟨rfl, released, own⟩, (outcome_givenKey first).mpr ⟨rfl, other⟩⟩

private theorem agrees_genRsaKey_iff :
    Agrees lib ssl server later self (.genRsaKey uuid keyVer) ↔
      AgreesWhen lib server self (.genRsaKey uuid keyVer) := by
  unfold Agrees AgreesWhen synchronous asynchronous genRsaKey genRsaKeyAsync
    GenKeyAsync.processRpcResponse
  dsimp only
  cases replied : server.generateKey ⟨uuid, keyVer, 0⟩ with
  | none =>
      refine iff_of_true ⟨_, outcome_pure _, ?_⟩ fun out keyRec none => by cases none
      exact outcome_pure _
  | some out =>
      dsimp only [Option.getD_some]
      cases first : out.pubKeys.head? with
      | none =>
          have empty : out = ⟨[]⟩ := by
            cases out
            exact congrArg PubKeyResp.mk (List.head?_eq_none_iff.mp first)
          subst empty
          refine iff_of_true ⟨_, outcome_pure _, outcome_pure _⟩ ?_
          intro out keyRec same there
          cases same
          cases there
      | some keyRec =>
          obtain ⟨rest, same⟩ := List.head?_eq_some_iff.mp first
          rw [same]
          refine (agree_on_key first).trans
            ⟨fun takes => ?_, fun takes => takes out keyRec rfl first⟩
          intro other again sameOut there
          cases sameOut
          rw [first] at there
          cases there
          exact takes

/-- Where the cache does not answer, neither form returns. -/
theorem not_agrees_of_silent {told : Status × Data} {sync : Option Bytes → ClientM (Status × Data)}
    (silent : ¬ self.Serves uuid) :
    outcome (cachedPublicKey uuid ver >>= sync) self ≠ some told := by
  rw [outcome_cachedPublicKey_silent silent]
  exact nofun

private theorem agrees_getRsaKey_iff :
    Agrees lib ssl server later self (.getRsaKey uuid keyVer) ↔
      AgreesWhen lib server self (.getRsaKey uuid keyVer) := by
  unfold Agrees AgreesWhen synchronous asynchronous getRsaKey getRsaKeyAsync
    QueryPubKeyAsync.processRpcResponse
  dsimp only
  by_cases serves : self.Serves uuid
  · obtain ⟨user, after, finds⟩ := serves
    obtain ⟨held, looked⟩ := (after.objects user).exists_value keyVer
    rw [outcome_cachedPublicKey_bind _ finds looked, outcome_cachedPublicKey_bind _ finds looked]
    -- the user is the one the lookup gives
    have here : ∀ {P : Crypto → Obj → Prop},
        (∃ user after, self.Finds uuid user after ∧ P after user) ↔ P after user := by
      intro P
      constructor
      · intro found
        obtain ⟨other, next, again, holds⟩ := found
        obtain ⟨rfl, rfl⟩ := finds.same again
        exact holds
      · exact fun holds => ⟨user, after, finds, holds⟩
    rw [here, looked]
    cases held with
    | some pubKey =>
        refine iff_of_true ⟨_, outcome_pure _, ?_⟩ fun none => by cases none
        exact outcome_pure _
    | none =>
        cases replied : server.queryPubKey ⟨uuid, keyVer, 0⟩ with
        | none =>
            refine iff_of_true ⟨_, outcome_pure _, ?_⟩ fun _ out none => by cases none
            exact outcome_pure _
        | some out =>
            dsimp only
            cases first : out.pubKeys.head? with
            | none =>
                have empty : out = ⟨[]⟩ := by
                  cases out
                  exact congrArg PubKeyResp.mk (List.head?_eq_none_iff.mp first)
                subst empty
                -- a reply without a record is a failure for one form only
                refine iff_of_false ?_ ?_
                · intro agrees
                  obtain ⟨told, kept, given⟩ := agrees
                  cases kept
                  cases given
                · intro shown
                  obtain ⟨keyRec, there, -⟩ := shown rfl _ rfl
                  cases there
            | some keyRec =>
                obtain ⟨rest, same⟩ := List.head?_eq_some_iff.mp first
                rw [same]
                refine (agree_on_key first).trans ⟨fun takes => ?_, fun takes => ?_⟩
                · intro _ other sameOut
                  cases sameOut
                  exact ⟨keyRec, first, takes⟩
                · obtain ⟨other, there, takes⟩ := takes rfl out rfl
                  rw [first] at there
                  cases there
                  exact takes
  · refine iff_of_false ?_ ?_
    · intro agrees
      obtain ⟨told, kept, -⟩ := agrees
      exact not_agrees_of_silent serves kept
    · intro found
      obtain ⟨user, after, finds, -⟩ := found
      exact serves ⟨user, after, finds⟩

private theorem agrees_getPublicKeys_iff :
    Agrees lib ssl server later self (.getPublicKeys uuid) ↔
      AgreesWhen lib server self (.getPublicKeys uuid) := by
  unfold Agrees AgreesWhen synchronous asynchronous getPublicKeys getPublicKeysAsync
  dsimp only
  constructor
  · intro agrees
    obtain ⟨told, kept, -⟩ := agrees
    by_contra silent
    rw [outcome_cachedAllPubKeys_silent silent] at kept
    cases kept
  · intro serves
    obtain ⟨user, after, finds⟩ := serves
    rw [outcome_cachedAllPubKeys_bind _ finds, outcome_cachedAllPubKeys_bind _ finds]
    exact ⟨_, outcome_pure _, outcome_pure _⟩

/-- The response method calls an empty function. -/
theorem not_agrees_putRsaKeypair (kver : Key64) (pubKey privKey : Bytes) :
    ¬ Agrees lib ssl server later self (.putRsaKeypair uuid kver pubKey privKey) := by
  intro agrees
  obtain ⟨told, -, given⟩ := agrees
  have throws : ∀ status (record : Option KeyVer) (self : Crypto),
      outcome (emptyFunction status record) self = none := fun _ _ _ => rfl
  unfold asynchronous putRsaKeypairAsync SaveKPairAsync.processRpcResponse at given
  dsimp only at given
  cases replied : server.saveKeyPair ⟨⟨uuid, kver, pubKey⟩, privKey⟩ with
  | none =>
      rw [replied] at given
      cases given
  | some resp =>
      rw [replied] at given
      dsimp only at given
      rw [outcome_bind] at given
      obtain ⟨⟨krec, after⟩, -, given⟩ := Option.bind_eq_some_iff.mp given
      rw [outcome_deref_bind] at given
      obtain ⟨record, -, given⟩ := Option.bind_eq_some_iff.mp given
      rw [throws] at given
      cases given

private theorem takeSigned_eq_iff {out : SignedMessage} :
    takeSigned lib out = (out.mesgHash, out.signature) ↔
      (lib.release out.mesgHash = none → out.signature = []) := by
  unfold takeSigned
  rcases lib.release_eq out.mesgHash with same | ⟨empty, null⟩
  · rw [same]
    exact iff_of_true (Prod.ext rfl (Protobuf.getD_release _)) nofun
  · rw [null, empty]
    exact ⟨fun same _ => (congrArg Prod.snd same).symm,
      fun unsigned => Prod.ext rfl (unsigned rfl).symm⟩

private theorem agrees_rsaSign_iff :
    Agrees lib ssl server later self (.rsaSign uuid keyVer mesg) ↔
      AgreesWhen lib server self (.rsaSign uuid keyVer mesg) := by
  unfold Agrees AgreesWhen synchronous asynchronous rsaSign rsaSignAsync
    SignMesgAsync.processRpcResponse
  dsimp only
  cases replied : server.signMesg (signReqt uuid keyVer mesg) with
  | none =>
      refine iff_of_true ⟨_, outcome_pure _, ?_⟩ fun out none => by cases none
      exact outcome_pure _
  | some out =>
      dsimp only
      rw [outcome_check_bind]
      by_cases own : uuid = out.uuid
      · rw [if_pos own]
        constructor
        · intro agrees other same
          cases same
          refine ⟨own.symm, takeSigned_eq_iff.mp ?_⟩
          obtain ⟨told, kept, given⟩ := agrees
          have ends := (List.cons.inj (Option.some.inj given)).1.trans (Option.some.inj kept).symm
          rw [Prod.mk.injEq, signedPart, Data.signed.injEq] at ends
          exact Prod.ext ends.2.1.symm ends.2.2.symm
        · intro signs
          obtain ⟨-, unsigned⟩ := signs out rfl
          rw [takeSigned_eq_iff.mpr unsigned]
          exact ⟨_, outcome_pure _, outcome_pure _⟩
      · rw [if_neg own]
        refine iff_of_false ?_ fun signs => own (signs out rfl).1.symm
        intro agrees
        obtain ⟨told, none, -⟩ := agrees
        cases none

/-- A key of which a signature is valid was read, so it is not empty. -/
theorem ne_nil_of_verifySignature (valid : (verifySignature ssl key mesg signature).1 = .ok) :
    key ≠ [] := by
  intro empty
  unfold verifySignature at valid
  rw [empty, ssl.readsPubkey_nil, if_neg Bool.false_ne_true] at valid
  cases valid

/-- The function given to `get_rsa_key` is called, or the program ends. -/
theorem calls_getRsaKeyAsync {cb : Callback (Option PubKeyResp)} {calls : Calls}
    (given : outcome (getRsaKeyAsync server uuid keyVer cb) self = some calls) :
    ∃ status resp after, outcome (cb status resp) after = some calls := by
  unfold getRsaKeyAsync at given
  rw [outcome_bind] at given
  obtain ⟨⟨held, middle⟩, -, given⟩ := Option.bind_eq_some_iff.mp given
  cases held with
  | some pubKey => exact ⟨_, _, _, given⟩
  | none =>
      unfold QueryPubKeyAsync.processRpcResponse at given
      cases replied : server.queryPubKey ⟨uuid, keyVer, 0⟩ with
      | none =>
          rw [replied] at given
          exact ⟨_, _, _, given⟩
      | some resp =>
          rw [replied] at given
          dsimp only at given
          rw [outcome_bind] at given
          obtain ⟨after, -, given⟩ := Option.bind_eq_some_iff.mp given
          exact ⟨_, _, _, given⟩

/-- The caller's function is called with a public key, if it is called. -/
theorem calls_verifySigCallback {status : Status} {resp : Option PubKeyResp}
    {view : Bytes × Bytes → Data} {told : Status × Data}
    (given : outcome (RsaVerifySigCb.callback lib ssl later uuid mesg signature (recorded view)
      status resp) self = some [told]) :
    ∃ hash pubKey, pubKey ≠ [] ∧ told = (.ok, view (hash, pubKey)) := by
  unfold RsaVerifySigCb.callback at given
  cases status with
  | failure => cases given
  | ok =>
      dsimp only at given
      rw [outcome_deref_bind] at given
      obtain ⟨resp, -, given⟩ := Option.bind_eq_some_iff.mp given
      cases first : resp.pubKeys with
      | nil =>
          rw [first] at given
          cases given
      | cons keyRec rest =>
          rw [first] at given
          dsimp only at given
          rw [outcome_bind] at given
          obtain ⟨middle, -, given⟩ := Option.bind_eq_some_iff.mp given
          rw [outcome_check_bind] at given
          by_cases own : keyRec.uuid = uuid
          · rw [if_pos own, outcome_bind] at given
            obtain ⟨got, -, given⟩ := Option.bind_eq_some_iff.mp given
            rw [outcome_check_bind] at given
            by_cases valid :
                (verifySignature ssl (keyText got.1.2) mesg signature).1 = Status.ok
            · rw [if_pos valid, outcome_deref_bind] at given
              obtain ⟨hash, -, given⟩ := Option.bind_eq_some_iff.mp given
              refine ⟨hash, keyText got.1.2, ne_nil_of_verifySignature valid, ?_⟩
              rw [← valid]
              exact (List.cons.inj (Option.some.inj given)).1.symm
            · rw [if_neg valid] at given
              cases given
          · rw [if_neg own] at given
            cases given

/-- The synchronous form gives no public key, the asynchronous one always does. -/
theorem not_agrees_rsaVerifySignature :
    ¬ Agrees lib ssl server later self (.rsaVerifySignature uuid keyVer mesg signature) := by
  intro agrees
  obtain ⟨told, kept, given⟩ := agrees
  unfold synchronous rsaVerifySignature at kept
  dsimp only at kept
  rw [outcome_bind] at kept
  obtain ⟨ret, -, kept⟩ := Option.bind_eq_some_iff.mp kept
  obtain ⟨status, resp, after, called⟩ := calls_getRsaKeyAsync given
  obtain ⟨hash, pubKey, present, same⟩ := calls_verifySigCallback called
  rw [same, Protobuf.getD_release] at kept
  have ends := Option.some.inj kept
  rw [Prod.mk.injEq, Data.verified.injEq, Protobuf.getD_release] at ends
  exact present ends.2.2.symm

/-- **The two forms.** An asynchronous operation calls its function once with what the synchronous
one returns exactly under the condition of its kind; for two operations it never does. -/
theorem agrees_iff (lib : Protobuf) (ssl : OpenSsl) (server later : KeyService) (self : Crypto)
    (call : Call) : Agrees lib ssl server later self call ↔ AgreesWhen lib server self call := by
  cases call with
  | genRsaKey uuid keyVer => exact agrees_genRsaKey_iff
  | putRsaKeypair uuid kver pubKey privKey =>
      exact iff_of_false (not_agrees_putRsaKeypair kver pubKey privKey) id
  | getPublicKeys uuid => exact agrees_getPublicKeys_iff
  | getRsaKey uuid keyVer => exact agrees_getRsaKey_iff
  | rsaSign uuid keyVer mesg => exact agrees_rsaSign_iff
  | rsaVerifySignature uuid keyVer mesg signature =>
      exact iff_of_false not_agrees_rsaVerifySignature id

/-! ## A request that fails -/

def readsNothing : OpenSsl where
  readsPubkey := fun _ => false
  readsPubkey_nil := rfl
  sha1 := fun _ => List.replicate 20 0
  rsaVerify := fun _ _ _ => false

/-- A server that cannot be reached. -/
def unreachable : KeyService := ⟨fun _ => none, fun _ => none, fun _ => none, fun _ => none,
  fun _ => none⟩

/-- One form of the verification returns a failure, the other never calls its function. -/
theorem verify_unreachable_not_agrees :
    outcome (synchronous Protobuf.nullWhenEmpty readsNothing unreachable
      (.rsaVerifySignature 7 1 [0x6d] [0x73])) (create 3) = some (.failure, .verified [] []) ∧
    outcome (asynchronous Protobuf.nullWhenEmpty readsNothing unreachable unreachable
      (.rsaVerifySignature 7 1 [0x6d] [0x73])) (create 3) = some [] ∧
    ¬ Agrees Protobuf.nullWhenEmpty readsNothing unreachable unreachable (create 3)
      (.rsaVerifySignature 7 1 [0x6d] [0x73]) := by
  have silent : outcome (asynchronous Protobuf.nullWhenEmpty readsNothing unreachable unreachable
      (.rsaVerifySignature 7 1 [0x6d] [0x73])) (create 3) = some [] := by decide +kernel
  refine ⟨by decide +kernel, silent, ?_⟩
  intro agrees
  obtain ⟨told, -, given⟩ := agrees
  rw [silent] at given
  cases given

end Crypto

end Tvntd
