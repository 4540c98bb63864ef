import Tvntd.Java.Text
import Tvntd.Lib.Expiring
import Tvntd.Lib.Machine
import Tvntd.Lib.Repository

/-! # Attempts to log in

Failures are counted under the address that a request came from. Whether a client is blocked is
looked up under the first address in its `X-FORWARDED-FOR` header, where it sends one. An attempt is
one step.
-/

namespace Tvntd.LoginAttempt

/-! ## Authentication -/

structure Role where
  name : String
  privileges : List String

structure User (Cipher : Type) where
  id : Nat
  email : String
  password : Cipher
  roles : List Role
  enabled : Bool

instance instEntityUser (Cipher : Type) : Entity (User Cipher) Nat := ⟨User.id⟩

structure UserDetails (Cipher : Type) where
  username : String
  password : Cipher
  enabled : Bool
  authorities : List String

/-- What a client presents; a mailed link carries a token, and the form a password. -/
structure Presented where
  email : String
  password : String
  token : Option String

inductive AuthFailure where
  | blocked
  | usernameNotFound (message : String)
  | incorrectResultSize
  | disabled
  | badCredentials
deriving DecidableEq

variable {Cipher : Type}
variable (passMatches : String → Cipher → Bool) (users : Repository (User Cipher))

def getAuthorities (roles : List Role) : List String := roles.flatMap Role.privileges

def detailsOf (user : User Cipher) : UserDetails Cipher :=
  ⟨user.email, user.password, user.enabled, getAuthorities user.roles⟩

/-- A query for one row fails where it finds more. -/
def loadUserByUsername (blocked : Bool) (email : String) :
    Except AuthFailure (UserDetails Cipher) :=
  if blocked then .error .blocked
  else
    match users.findAll fun user => decide (user.email = email) with
    | [] => .error (.usernameNotFound ("No user " ++ email ++ " found"))
    | [user] => .ok (detailsOf user)
    | _ => .error .incorrectResultSize

/-- A token in the request stands for the password, whatever it is. -/
def additionalAuthenticationChecks (details : UserDetails Cipher) (auth : Presented) :
    Except AuthFailure Unit :=
  if auth.token.isSome then .ok ()
  else if passMatches auth.password details.password then .ok ()
  else .error .badCredentials

def authenticate (blocked : Bool) (auth : Presented) :
    Except AuthFailure (UserDetails Cipher) := do
  let details ← loadUserByUsername users blocked auth.email
  if details.enabled = false then
    throw .disabled
  additionalAuthenticationChecks passMatches details auth
  pure details

/-! ## The cache of failures -/

def MAX_ATTEMPT : Int := 10

/-- In nanoseconds. -/
def day : Int := 86400000000000

abbrev AttemptsCache := Expiring Text (BitVec 32)

def loginSucceeded (cache : AttemptsCache) (key : Text) : AttemptsCache := cache.invalidate key

def loginFailed (cache : AttemptsCache) (now : Int) (key : Text) : AttemptsCache :=
  let (attempts, cache) := cache.get day 0 now key
  cache.put now key (attempts + 1)

def isBlocked (cache : AttemptsCache) (now : Int) (key : Text) : Bool × AttemptsCache :=
  let (attempts, cache) := cache.get day 0 now key
  (decide (MAX_ATTEMPT ≤ attempts.toInt), cache)

/-- The text in front of the first comma; one of commas only has no parts at all. -/
def firstPart (text : Text) : Option Text :=
  if text.all fun unit => decide (unit = 0x2C) then none
  else some (text.takeWhile fun unit => decide (unit ≠ 0x2C))

/-- None where the header makes it throw. -/
def getClientIP (xfHeader : Option Text) (remoteAddr : Text) : Option Text :=
  match xfHeader with
  | none => some remoteAddr
  | some header => if header = [] then some remoteAddr else firstPart header

/-- A login form, with the time and the accounts as it finds them. -/
structure Attempt (Cipher : Type) where
  now : Int
  xfHeader : Option Text
  remoteAddr : Text
  email : String
  password : String
  users : Repository (User Cipher)

inductive Result (Cipher : Type) where
  | entered (details : UserDetails Cipher)
  | refused (failure : AuthFailure)
  | badHeader

/-- `authenticate`, with the listeners of its two events. -/
def attempt (cache : AttemptsCache) (form : Attempt Cipher) : Result Cipher × AttemptsCache :=
  match getClientIP form.xfHeader form.remoteAddr with
  | none => (.badHeader, cache)
  | some ip =>
      let (blocked, cache) := isBlocked cache form.now ip
      match authenticate passMatches form.users blocked ⟨form.email, form.password, none⟩ with
      | .ok details => (.entered details, loginSucceeded cache form.remoteAddr)
      | .error .badCredentials =>
          (.refused .badCredentials, loginFailed cache form.now form.remoteAddr)
      | .error failure => (.refused failure, cache)

/-! ## Runs -/

structure Throttle where
  cache : AttemptsCache
  clock : Int

def Throttle.machine : Machine Throttle (Attempt Cipher) (Result Cipher) where
  step := fun throttle form =>
    some (⟨(attempt passMatches throttle.cache form).2, form.now⟩,
      (attempt passMatches throttle.cache form).1)

/-- Time does not go back. -/
def Throttle.Onward (throttle : Throttle) (form : Attempt Cipher) : Prop :=
  throttle.clock ≤ form.now

inductive Event where
  | failed (now : Int) (address : Text)
  | succeeded (address : Text)

def eventOf (form : Attempt Cipher) : Result Cipher → Option Event
  | .entered _ => some (.succeeded form.remoteAddr)
  | .refused .badCredentials => some (.failed form.now form.remoteAddr)
  | .refused _ => none
  | .badHeader => none

/-- What a run makes of its attempts, the latest event first. -/
def history (forms : List (Attempt Cipher)) (results : List (Result Cipher)) : List Event :=
  ((forms.zip results).filterMap fun pair => eventOf pair.1 pair.2).reverse

/-- The failures from an address up to now with less than a day between them, since the last time
that a login from there succeeded. -/
def streak (address : Text) : List Event → Int → Nat
  | [], _ => 0
  | .failed before other :: earlier, now =>
      if other = address then
        if now - before < day then streak address earlier before + 1 else 0
      else streak address earlier now
  | .succeeded other :: earlier, now =>
      if other = address then 0 else streak address earlier now

/-- A number of failures in an `int`. -/
def counted (failures : Nat) : Int := (BitVec.ofNat 32 failures).toInt

/-- The cache counts the streaks, up to the size of an `int`. -/
def Counts (throttle : Throttle) (past : List Event) : Prop :=
  ∀ address now, throttle.clock ≤ now →
    throttle.cache.valueAt day 0 now address = BitVec.ofNat 32 (streak address past now)

private theorem isBlocked_fst (cache : AttemptsCache) (now : Int) (key : Text) :
    (isBlocked cache now key).1 =
      decide (MAX_ATTEMPT ≤ (cache.valueAt day 0 now key).toInt) := by
  rw [← Expiring.get_fst]
  rfl

private theorem valueAt_isBlocked {cache : AttemptsCache} {now later : Int} {key address : Text}
    (onward : now ≤ later) :
    (isBlocked cache now key).2.valueAt day 0 later address = cache.valueAt day 0 later address :=
  Expiring.valueAt_get onward

private theorem valueAt_loginFailed {cache : AttemptsCache} {now later : Int} {key address : Text}
    (onward : now ≤ later) :
    (loginFailed cache now key).valueAt day 0 later address =
      if key = address then if later - now < day then cache.valueAt day 0 now key + 1 else 0
      else cache.valueAt day 0 later address := by
  rw [loginFailed]
  dsimp only
  by_cases here : key = address
  · subst here
    rw [if_pos rfl, Expiring.valueAt_put_self, Expiring.get_fst]
  · rw [if_neg here, Expiring.valueAt_put_of_ne _ (Ne.symm here), Expiring.valueAt_get onward]

private theorem valueAt_loginSucceeded {cache : AttemptsCache} {later : Int} {key address : Text} :
    (loginSucceeded cache key).valueAt day 0 later address =
      if key = address then 0 else cache.valueAt day 0 later address := by
  by_cases here : key = address
  · subst here
    rw [if_pos rfl]
    exact Expiring.valueAt_invalidate_self
  · rw [if_neg here]
    exact Expiring.valueAt_invalidate_of_ne (Ne.symm here)

variable {passMatches} {users} {throttle : Throttle} {past : List Event}

/-- An attempt adds its event to the past, and the cache counts that. -/
theorem Counts.attempt (counts : Counts throttle past) {form : Attempt Cipher}
    (onward : throttle.Onward form) :
    Counts ⟨(attempt passMatches throttle.cache form).2, form.now⟩
      ((eventOf form (LoginAttempt.attempt passMatches throttle.cache form).1).toList ++ past) := by
  intro address now later
  dsimp only at later
  have before : throttle.cache.valueAt day 0 now address =
      BitVec.ofNat 32 (streak address past now) := counts address now (Int.le_trans onward later)
  rw [LoginAttempt.attempt]
  split
  · exact before
  · rename_i ip _
    dsimp only
    split
    · show Expiring.valueAt day 0 (loginSucceeded _ _) now address =
        BitVec.ofNat 32 (if form.remoteAddr = address then 0 else streak address past now)
      rw [valueAt_loginSucceeded, valueAt_isBlocked later, before, apply_ite (BitVec.ofNat 32)]
      rfl
    · show Expiring.valueAt day 0 (loginFailed _ _ _) now address =
        BitVec.ofNat 32 (if form.remoteAddr = address then
          if now - form.now < day then streak address past form.now + 1 else 0
        else streak address past now)
      rw [valueAt_loginFailed later, valueAt_isBlocked later, before,
        valueAt_isBlocked (Int.le_refl _), counts _ _ onward, apply_ite (BitVec.ofNat 32),
        apply_ite (BitVec.ofNat 32), BitVec.ofNat_add]
      split
      · rename_i same
        rw [same]
        rfl
      · rfl
    · rename_i failure other _
      have none : eventOf form (Result.refused failure : Result Cipher) = none := by
        cases failure with
        | badCredentials => exact absurd rfl other
        | blocked => rfl
        | usernameNotFound message => rfl
        | incorrectResultSize => rfl
        | disabled => rfl
      rw [none]
      exact (valueAt_isBlocked later).trans before

private theorem history_cons (form : Attempt Cipher) (result : Result Cipher)
    (forms : List (Attempt Cipher)) (results : List (Result Cipher)) :
    history (form :: forms) (result :: results) =
      history forms results ++ (eventOf form result).toList := by
  rw [history, history, List.zip_cons_cons, List.filterMap_cons]
  cases eventOf form result with
  | none => rw [Option.toList_none, List.append_nil]
  | some event => rw [List.reverse_cons, Option.toList_some]

theorem Counts.run {forms : List (Attempt Cipher)} : ∀ {throttle final : Throttle}
    {past : List Event} {results : List (Result Cipher)}, Counts throttle past →
      (Throttle.machine passMatches).Meets Throttle.Onward throttle forms →
        (Throttle.machine passMatches).run throttle forms = some (final, results) →
          Counts final (history forms results ++ past) := by
  induction forms with
  | nil =>
      intro throttle final past results counts _ ran
      rw [Machine.run_nil, Option.some.injEq, Prod.mk.injEq] at ran
      obtain ⟨rfl, rfl⟩ := ran
      exact counts
  | cons form rest ih =>
      intro throttle final past results counts meets ran
      obtain ⟨next, result, later, stepped, tail, rfl⟩ := Machine.run_cons_eq_some ran
      have after := ih (counts.attempt meets.1)
        (by cases stepped; exact meets.tail rfl) (by cases stepped; exact tail)
      cases stepped
      rwa [history_cons, List.append_assoc]

private theorem streak_eq_zero {address : Text} (apart : ∀ event ∈ past, ∀ before,
    event ≠ .failed before address) (now : Int) : streak address past now = 0 := by
  induction past generalizing now with
  | nil => rfl
  | cons event earlier ih =>
      have rest := ih fun other inside => apart other (List.mem_cons_of_mem _ inside)
      cases event with
      | failed before other =>
          have away : other ≠ address := fun same =>
            apart _ List.mem_cons_self before (same ▸ rfl)
          rw [streak, if_neg away, rest]
      | succeeded other =>
          rw [streak, rest]
          exact ite_self 0

theorem additionalAuthenticationChecks_error {details : UserDetails Cipher} {auth : Presented}
    {failure : AuthFailure}
    (failed : additionalAuthenticationChecks passMatches details auth = .error failure) :
    failure = .badCredentials := by
  rw [additionalAuthenticationChecks] at failed
  split at failed
  · cases failed
  · split at failed
    · cases failed
    · cases failed
      rfl

private theorem loadUserByUsername_blocked_iff {blocked : Bool} {email : String} :
    loadUserByUsername users blocked email = .error .blocked ↔ blocked = true := by
  cases blocked with
  | true => exact iff_of_true rfl rfl
  | false =>
      refine iff_of_false (fun failed => ?_) Bool.false_ne_true
      rw [loadUserByUsername, if_neg Bool.false_ne_true] at failed
      split at failed
      · cases failed
      · cases failed
      · cases failed

/-- What is left of an authentication once its account is found. -/
theorem authenticate_of_loaded {blocked : Bool} {auth : Presented} {details : UserDetails Cipher}
    (loaded : loadUserByUsername users blocked auth.email = .ok details) :
    authenticate passMatches users blocked auth =
      if details.enabled = false then .error .disabled
      else (additionalAuthenticationChecks passMatches details auth).map fun _ => details := by
  rw [authenticate, loaded]
  dsimp only [bind, Except.bind]
  split
  · rfl
  · cases additionalAuthenticationChecks passMatches details auth with
    | error failure => rfl
    | ok => rfl

private theorem authenticate_blocked_iff {blocked : Bool} {auth : Presented} :
    authenticate passMatches users blocked auth = .error .blocked ↔ blocked = true := by
  rw [← loadUserByUsername_blocked_iff]
  cases loaded : loadUserByUsername users blocked auth.email with
  | error failure =>
      rw [authenticate, loaded]
      rfl
  | ok details =>
      refine iff_of_false (fun failed => ?_) (fun same => by cases same)
      rw [authenticate_of_loaded loaded] at failed
      split at failed
      · cases failed
      · cases checked : additionalAuthenticationChecks passMatches details auth with
        | ok =>
            rw [checked] at failed
            cases failed
        | error failure =>
            rw [checked, additionalAuthenticationChecks_error checked] at failed
            cases failed

/-- A client is blocked by the count under the address that it claims. -/
theorem attempt_blocked_iff {cache : AttemptsCache} {form : Attempt Cipher} :
    (attempt passMatches cache form).1 = .refused .blocked ↔
      ∃ ip, getClientIP form.xfHeader form.remoteAddr = some ip ∧
        (isBlocked cache form.now ip).1 = true := by
  rw [attempt]
  cases getClientIP form.xfHeader form.remoteAddr with
  | none =>
      exact iff_of_false (fun same => by cases same) fun claimed => by cases claimed.choose_spec.1
  | some ip =>
      have refused : authenticate passMatches form.users (isBlocked cache form.now ip).1
          ⟨form.email, form.password, none⟩ = .error .blocked ↔
            (isBlocked cache form.now ip).1 = true := authenticate_blocked_iff
      simp only [Option.some.injEq, exists_eq_left', ← refused]
      split
      · rename_i ok
        rw [ok]
        exact iff_of_false (fun same => by cases same) fun same => by cases same
      · rename_i bad
        rw [bad]
        exact iff_of_false (fun same => by cases same) fun same => by cases same
      · rename_i failure _ failed
        rw [failed]
        exact ⟨fun same => by cases same; rfl, fun same => by cases same; rfl⟩

private theorem mem_history {forms : List (Attempt Cipher)} {results : List (Result Cipher)}
    {before : Int} {address : Text} (inside : .failed before address ∈ history forms results) :
    ∃ form ∈ forms, form.remoteAddr = address := by
  obtain ⟨pair, paired, made⟩ := List.mem_filterMap.mp (List.mem_reverse.mp inside)
  obtain ⟨form, result⟩ := pair
  refine ⟨form, (List.of_mem_zip paired).1, ?_⟩
  cases result with
  | entered details => cases made
  | badHeader => cases made
  | refused failure =>
      cases failure with
      | badCredentials => cases made; rfl
      | blocked => cases made
      | usernameNotFound message => cases made
      | incorrectResultSize => cases made
      | disabled => cases made

/-- **Blocked clients.** The next attempt is refused as blocked exactly when at least ten failures
in a row from the address that it claims are counted, so a client that claims an address that no
attempt came from never is, however often it fails. -/
theorem blocked_of_run {clock : Int} {forms : List (Attempt Cipher)} {throttle : Throttle}
    {results : List (Result Cipher)}
    (onward : (Throttle.machine passMatches).Meets Throttle.Onward ⟨Expiring.empty, clock⟩ forms)
    (ran : (Throttle.machine passMatches).run ⟨Expiring.empty, clock⟩ forms =
      some (throttle, results))
    {form : Attempt Cipher} (next : throttle.Onward form) :
    ((attempt passMatches throttle.cache form).1 = .refused .blocked ↔
      ∃ ip, getClientIP form.xfHeader form.remoteAddr = some ip ∧
        MAX_ATTEMPT ≤ counted (streak ip (history forms results) form.now)) ∧
      ((∀ other ∈ forms, getClientIP form.xfHeader form.remoteAddr ≠ some other.remoteAddr) →
        (attempt passMatches throttle.cache form).1 ≠ .refused .blocked) := by
  have start : Counts ⟨Expiring.empty, clock⟩ [] := fun _ _ _ => rfl
  have counts := start.run onward ran
  rw [List.append_nil] at counts
  have exact_ : (attempt passMatches throttle.cache form).1 = .refused .blocked ↔
      ∃ ip, getClientIP form.xfHeader form.remoteAddr = some ip ∧
        MAX_ATTEMPT ≤ counted (streak ip (history forms results) form.now) := by
    rw [attempt_blocked_iff]
    refine exists_congr fun ip => and_congr_right fun _ => ?_
    rw [isBlocked_fst, decide_eq_true_iff, counts ip _ next]
    rfl
  refine ⟨exact_, fun away blocked => ?_⟩
  obtain ⟨ip, claimed, many⟩ := exact_.mp blocked
  have none : streak ip (history forms results) form.now = 0 := by
    refine streak_eq_zero (fun event inside before same => ?_) _
    subst same
    obtain ⟨other, made, address⟩ := mem_history inside
    exact away other made (claimed.trans (congrArg some address.symm))
  rw [none] at many
  exact absurd many (by decide)

def plainMatches (given stored : String) : Bool := decide (given = stored)

def oneAccount : Repository (User String) :=
  Repository.empty.save ⟨1, "b", "q", [⟨"ROLE_User", ["OP-Rd"]⟩], true⟩

/-- A wrong password, sent without a header. -/
def wrongPassword : Attempt String := ⟨5, none, [0x31], "b", "x", oneAccount⟩

private theorem onward_wrong (turns : Nat) {throttle : Throttle} (early : throttle.clock ≤ 5) :
    (Throttle.machine plainMatches).Meets Throttle.Onward throttle
      (List.replicate turns wrongPassword) := by
  induction turns generalizing throttle with
  | zero => trivial
  | succ turns ih =>
      refine ⟨early, fun next result stepped => ih ?_⟩
      cases stepped
      exact Int.le_refl 5

private theorem wrong_runs : ((Throttle.machine plainMatches).run ⟨Expiring.empty, 0⟩
    (List.replicate 10 wrongPassword)).isSome = true := by decide +kernel

/-- What ten wrong passwords lead to. -/
def afterWrong : Throttle × List (Result String) :=
  ((Throttle.machine plainMatches).run ⟨Expiring.empty, 0⟩
    (List.replicate 10 wrongPassword)).get wrong_runs

theorem blocked_of_run_wrong :
    (attempt plainMatches afterWrong.1.cache wrongPassword).1 = .refused .blocked := by
  have late : afterWrong.1.clock ≤ wrongPassword.now := by decide +kernel
  have many : MAX_ATTEMPT ≤ counted (streak [0x31]
      (history (List.replicate 10 wrongPassword) afterWrong.2) wrongPassword.now) := by
    decide +kernel
  exact (blocked_of_run (onward_wrong 10 (by decide)) (Option.some_get wrong_runs).symm late).1.mpr
    ⟨[0x31], rfl, many⟩

end Tvntd.LoginAttempt
