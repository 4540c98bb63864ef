import Tvntd.Cpptype.LruLock

/-! # The six lookups of an `LruTable`

A lookup takes a 64-bit key, a C string or a `std::string`, with or without a
callback. A run takes any operations of one cache; every call comes with what
the functions of the user answer then, and the kind of key under which each
object was inserted is recorded.

A lookup is right when it finds what was inserted under its key, does what the
other form would do, and counts a hit where it finds and a miss where it does not.
-/

namespace Tvntd

namespace DHashObj

/-! ## What a search finds -/

section Searches

variable {self : DHashObj} {objs : List Obj} {obj : Obj}

/-- The object of the link compares equal to a 64-bit key. -/
def equal64 (cmp64 : Key64 → Key64 → Int) (mem : ObjMem) (key : Key64) (link : Link) : Bool :=
  (mem.objCptr link).any fun obj => cmp64 (mem.key64 obj) key = 0

/-- The object is the first of a bucket that compares equal, and where the walk to it is so long
that it doubles the table, the doubled size is an `int`. -/
def FirstIn (self : DHashObj) (index : Nat) (same : Link → Bool) (obj : Obj) : Prop :=
  (self.mTab.dhBucket index).find? same = some (.chain obj) ∧
    (LongWalk same (self.mTab.dhBucket index) → 1 + self.mTab.dhBkSize * 2 < 2 ^ 31)

theorem Resides.lookupElm_iff (resides : self.Resides objs) {elm : Link} {hashFn : HashFn Link}
    {hashCmp : CmpFn Link} {index : Nat} {same : Link → Bool}
    (hashed : hashFn self.mTab.dhBkSize elm = some index) (inside : index < self.mTab.dhBkSize)
    (compares : ∀ obj ∈ objs, ∃ order, hashCmp (.chain obj) elm = some order ∧
      (order = 0 ↔ same (.chain obj) = true)) :
    (∃ next, self.lookupElm elm hashFn hashCmp = some (some obj, next)) ↔
      self.FirstIn index same obj := by
  obtain ⟨slot, within, chained⟩ := resides.chained
  have member : ∀ link ∈ self.mTab.dhBucket index, ∃ obj ∈ objs, Link.chain obj = link :=
    fun link linked => List.mem_map.mp ((chained.mem _ _).mp linked).1
  have scanned : ∀ link ∈ self.mTab.dhBucket index,
      ∃ order, hashCmp link elm = some order ∧ (order = 0 ↔ same link = true) := by
    intro link linked
    obtain ⟨obj, held, rfl⟩ := member link linked
    exact compares obj held
  have points : objPtr self.mem ((self.mTab.dhBucket index).find? same) = some obj ↔
      (self.mTab.dhBucket index).find? same = some (.chain obj) := by
    cases first : (self.mTab.dhBucket index).find? same with
    | none => exact iff_of_false (fun none => by cases none) (fun none => by cases none)
    | some link =>
        obtain ⟨other, held, rfl⟩ := member link (List.mem_of_find?_eq_some first)
        have here : self.mem.objCptr (.chain other) = some (.obj other) :=
          if_pos (resides.held other held)
        rw [objPtr, Option.bind_some, here, Option.some.injEq, Option.some.injEq, Link.chain.injEq]
  unfold DHashObj.lookupElm FirstIn
  rw [dhashFindElm_eq (tableFn self.mem) hashed inside scanned, longWalk_iff, ← points]
  constructor
  · rintro ⟨next, looked⟩
    obtain ⟨result, searched, answered⟩ := Option.map_eq_some_iff.mp looked
    obtain ⟨tab, grew, rfl⟩ := Option.map_eq_some_iff.mp searched
    have found := (Prod.mk.inj answered).1
    obtain ⟨other, held, -⟩ := member _ (List.mem_of_find?_eq_some (points.mp found))
    refine ⟨found, (resides.dhashGrow_isSome _ (List.ne_nil_of_mem held)).mp ?_⟩
    rw [grew]
    rfl
  · rintro ⟨found, room⟩
    have first := points.mp found
    obtain ⟨other, held, -⟩ := member _ (List.mem_of_find?_eq_some first)
    obtain ⟨tab, grew⟩ := Option.isSome_iff_exists.mp
      ((resides.dhashGrow_isSome _ (List.ne_nil_of_mem held)).mpr room)
    rw [grew, Option.map_some, Option.map_some, found]
    exact ⟨_, rfl⟩

private theorem Resides.lookup64_iff (resides : self.Resides objs) {cmp64 : Key64 → Key64 → Int}
    {key : Key64} : (∃ next, self.lookup64 cmp64 key = some (some obj, next)) ↔
      self.FirstIn (objHash64 self.mTab.dhBkSize key) (equal64 cmp64 self.mem key) obj := by
  refine resides.lookupElm_iff rfl (objHash64_lt resides.positive key) ?_
  intro other held
  refine ⟨cmp64 (self.mem.objKey64 other) key, ?_, ?_⟩
  · unfold dhHashCmpKey64
    rw [resides.linked_eq held]
    rfl
  · unfold equal64
    rw [show self.mem.objCptr (.chain other) = some (.obj other) from
      if_pos (resides.held other held)]
    exact decide_eq_true_iff.symm

private theorem Resides.lookupStr_iff (resides : self.Resides objs) {key : CStr} :
    (∃ next, self.lookupStr key = some (some obj, next)) ↔
      self.FirstIn (objHashStrfn self.mTab.dhBkSize key.bytes) (named self.mem key) obj := by
  refine resides.lookupElm_iff rfl (objHashStrfn_lt resides.positive key.bytes) ?_
  intro other held
  refine ⟨strcmp (self.mem.objKeystr other).bytes key.bytes, ?_, ?_⟩
  · unfold dhHashCmpKeystr
    rw [resides.linked_eq held]
    rfl
  · unfold named
    rw [show self.mem.objCptr (.chain other) = some (.obj other) from
      if_pos (resides.held other held), strcmp_eq_zero_iff]
    exact decide_eq_true_iff.symm

end Searches

end DHashObj

namespace LruTable

/-! ## The six lookups -/

/-- The key of a lookup: a 64-bit key, a C string or the contents of a `std::string`. -/
inductive LookupKey where
  | key64 (key : Key64)
  | str (key : CStr)
  | string (key : List Byte)

/-- The two kinds of keys that objects are inserted under. -/
inductive KeyKind where
  | key64
  | keystr

namespace LookupKey

variable (cmp64 : Key64 → Key64 → Int) (user : LruUser)

def kind : LookupKey → KeyKind
  | .key64 _ => .key64
  | .str _ | .string _ => .keystr

/-- The key of the object equals the key. -/
def Of (mem : ObjMem) (obj : Obj) : LookupKey → Prop
  | .key64 key => mem.objKey64 obj = key
  | .str key => mem.objKeystr obj = key
  | .string key => (mem.objKeystr obj).bytes = key

/-- `lookup_missed(key)` -/
def missed : LookupKey → Option Obj
  | .key64 key => user.lookupMissed64 key
  | .str key => user.lookupMissedStr key.bytes
  | .string key => user.lookupMissedStr key

/-- The call of `m_hash.lookup`. -/
def find : LookupKey → DHashObj → Option (Option Obj × DHashObj)
  | .key64 key => fun hash => hash.lookup64 cmp64 key
  | .str key => fun hash => hash.lookupStr key
  | .string key => fun hash => hash.lookupStr (user.stringBytes key)

/-- The insertion of an object that `lookup_missed` returned. -/
def insert : LookupKey → Option Obj → LruM DHashObj Bool
  | .key64 _ => insertKey64 (dhashIndex64 cmp64)
  | .str _ | .string _ => insertKeystr (dhashIndex64 cmp64)

/-- The three lookups without a callback. -/
def lookup : LookupKey → LruM DHashObj (Option Obj)
  | .key64 key => lookup64 (dhashIndex64 cmp64) user key
  | .str key => lookupStr (dhashIndex64 cmp64) user key
  | .string key => lookupString (dhashIndex64 cmp64) user key

/-- What the callback of the other three gets: the object that was found, or what
`lookup_missed(key, cb)` hands on from `lookup_missed(key)`. -/
def lookupCb (key : LookupKey) : LruM DHashObj (Option Obj) := do
  let found ← match key with
    | .key64 key => lookupCb64 (dhashIndex64 cmp64) key
    | .str key => lookupCbStr (dhashIndex64 cmp64) key
    | .string key => lookupCbString (dhashIndex64 cmp64) user key
  match found with
  | some obj => return some obj
  | none => return key.missed user

def lookupBy (key : LookupKey) (callback : Bool) : LruM DHashObj (Option Obj) :=
  if callback then key.lookupCb cmp64 user else key.lookup cmp64 user

/-- The object is the first in the slot of the key whose own key compares equal. A `std::string`
is looked up by what its bytes in memory spell. -/
def First (hash : DHashObj) (obj : Obj) : LookupKey → Prop
  | .key64 key => hash.FirstIn (objHash64 hash.mTab.dhBkSize key)
      (DHashObj.equal64 cmp64 hash.mem key) obj
  | .str key => hash.FirstIn (objHashStrfn hash.mTab.dhBkSize key.bytes)
      (DHashObj.named hash.mem key) obj
  | .string key => hash.FirstIn (objHashStrfn hash.mTab.dhBkSize (user.stringBytes key).bytes)
      (DHashObj.named hash.mem (user.stringBytes key)) obj

variable {cmp64} {user} {self : LruTable DHashObj} {hash : DHashObj}

private theorem lookup_eq (key : LookupKey) :
    key.lookup cmp64 user = lookupWith (key.find cmp64 user) (key.missed user)
      (key.insert cmp64) := by
  cases key with
  | key64 key => rfl
  | str key => rfl
  | string key => rfl

private theorem lookupCb_eq (key : LookupKey) :
    key.lookupCb cmp64 user = (do
      match ← lookupCbWith (key.find cmp64 user) with
      | some obj => return some obj
      | none => return key.missed user) := by
  cases key with
  | key64 key => rfl
  | str key => rfl
  | string key => rfl

theorem find_iff {objs : List Obj} (resides : hash.Resides objs) (key : LookupKey) {obj : Obj} :
    (∃ next, key.find cmp64 user hash = some (some obj, next)) ↔ key.First cmp64 user hash obj := by
  cases key with
  | key64 key => exact resides.lookup64_iff
  | str key => exact resides.lookupStr_iff
  | string key => exact resides.lookupStr_iff

private theorem find_resides {objs : List Obj} (resides : hash.Resides objs) (key : LookupKey)
    {found : Option Obj} {next : DHashObj}
    (looked : key.find cmp64 user hash = some (found, next)) :
    next.Resides objs ∧ ∀ obj, found = some obj → obj ∈ objs := by
  cases key with
  | key64 key => exact (resides.lookup64 looked).2
  | str key => exact (resides.lookupStr looked).2
  | string key => exact (resides.lookupStr looked).2

/-! ## How each form ends -/

theorem exec_lookup_hit (free : self.mLock.held = false) (key : LookupKey) {obj : Obj}
    (found : key.find cmp64 user self.mHash = some (some obj, hash)) :
    exec (key.lookup cmp64 user) self =
      (.ok (some obj), { self.searched hash with mHitCnt := self.mHitCnt + 1 }) := by
  rw [lookup_eq]
  exact exec_search free found _

theorem exec_lookup_miss (free : self.mLock.held = false) (key : LookupKey) {save : Obj}
    (found : key.find cmp64 user self.mHash = some (none, hash))
    (allocates : key.missed user = some save) :
    exec (key.lookup cmp64 user) self = exec (do
      let _ ← key.insert cmp64 (some save)
      return some save) (self.missed hash) := by
  rw [lookup_eq, allocates]
  exact exec_search free found _

private theorem exec_lookup_aborts (free : self.mLock.held = false) (key : LookupKey)
    (aborts : key.find cmp64 user self.mHash = none) :
    exec (key.lookup cmp64 user) self = (.error .assertion, self.locked) := by
  rw [lookup_eq]
  exact exec_search_none free aborts _

private theorem exec_lookupCb_hit (free : self.mLock.held = false) (key : LookupKey) {obj : Obj}
    (found : key.find cmp64 user self.mHash = some (some obj, hash)) :
    exec (key.lookupCb cmp64 user) self =
      (.ok (some obj), { self.searched hash with mMissCnt := self.mMissCnt + 1 }) := by
  have ended : exec (lookupCbWith (key.find cmp64 user)) self =
      (.ok (some obj), { self.searched hash with mMissCnt := self.mMissCnt + 1 }) := by
    rw [lookupCbWith, exec_search free found]
    rfl
  rw [lookupCb_eq, exec_bind_of_ok _ ended]
  rfl

private theorem exec_lookupCb_miss (free : self.mLock.held = false) (key : LookupKey)
    (found : key.find cmp64 user self.mHash = some (none, hash)) :
    exec (key.lookupCb cmp64 user) self =
      (.ok (key.missed user), { self.searched hash with mHitCnt := self.mHitCnt + 1 }) := by
  have ended : exec (lookupCbWith (key.find cmp64 user)) self =
      (.ok none, { self.searched hash with mHitCnt := self.mHitCnt + 1 }) := by
    rw [lookupCbWith, exec_search free found]
    rfl
  rw [lookupCb_eq, exec_bind_of_ok _ ended]
  rfl

private theorem exec_lookupCb_aborts (free : self.mLock.held = false) (key : LookupKey)
    (aborts : key.find cmp64 user self.mHash = none) :
    exec (key.lookupCb cmp64 user) self = (.error .assertion, self.locked) := by
  have ended : exec (lookupCbWith (key.find cmp64 user)) self =
      (.error .assertion, self.locked) := by
    rw [lookupCbWith, exec_search_none free aborts]
  rw [lookupCb_eq, exec_bind_of_error _ ended]

/-- An insertion that returns after a search that missed shows: its object is resident then, or it
counts a hit of its own. -/
theorem insert_shows (resident : self.Resident DHashObj.Resides) (free : self.mLock.held = false)
    (key : LookupKey) {save : Obj} {ret : Bool} {next : LruTable DHashObj}
    (ran : exec (key.insert cmp64 (some save)) self = (.ok ret, next)) :
    save ∈ next.mLru ∨ next.mHitCnt = self.mHitCnt + 1 := by
  have byStr (ran : exec (insertKeystr (dhashIndex64 cmp64) (some save)) self = (.ok ret, next)) :
      save ∈ next.mLru := by
    rcases insertKeystr_ends cmp64 resident free with
      ⟨-, after, ended, -, -, -, inside, -⟩ | ⟨-, fault, after, ended, -⟩
    · rw [ended] at ran
      cases ran
      exact inside
    · rw [ended] at ran
      cases ran
  cases key with
  | key64 key =>
      rcases insertKey64_ends resident free with
        ⟨⟨ref, hash, found⟩, -⟩ | ⟨-, -, after, ended, -, -, -, inside, -⟩ | ⟨-, after, ended, -⟩
      · have hit := exec_insertKey64_hit (dhashIndex64_laws cmp64) (dhashIndex64_searches64 cmp64)
          resident free found
        exact .inr (congrArg (fun after => after.2.mHitCnt) (ran.symm.trans hit))
      · exact .inl (congrArg (fun after => after.2.mLru) (ended.symm.trans ran) ▸ inside)
      · have refused := ended.symm.trans ran
        cases refused
  | str key => exact .inl (byStr ran)
  | string key => exact .inl (byStr ran)

end LookupKey

/-! ## The mutex between the operations -/

section EndsFree

variable {α β : Type} {cmp64 : Key64 → Key64 → Int} {user : LruUser}

/-- The mutex is free when the operation returns. -/
def EndsFree (op : LruM DHashObj α) : Prop :=
  ∀ self, (exec op self).1.isOk → (exec op self).2.mLock.held = false

/-- The mutex is as before. -/
def KeepsLock (op : LruM DHashObj α) : Prop := ∀ self, (exec op self).2.mLock = self.mLock

theorem EndsFree.after (first : LruM DHashObj α) {second : α → LruM DHashObj β}
    (ends : ∀ value, EndsFree (second value)) : EndsFree (first >>= second) := by
  intro self returns
  obtain ⟨value, next, -, same⟩ := exec_bind_isOk returns
  rw [same] at returns ⊢
  exact ends value next returns

theorem EndsFree.before {first : LruM DHashObj α} (ends : EndsFree first)
    {second : α → LruM DHashObj β} (keeps : ∀ value, KeepsLock (second value)) :
    EndsFree (first >>= second) := by
  intro self returns
  obtain ⟨value, next, ran, same⟩ := exec_bind_isOk returns
  have freed := ends self (by rw [ran]; rfl)
  rw [ran] at freed
  rw [same, keeps value next]
  exact freed

private theorem endsFree_unlock : EndsFree pthreadMutexUnlock := fun _ _ => rfl

private theorem endsFree_throw (fault : Fault) : EndsFree (throw fault : LruM DHashObj α) := by
  intro self returns
  cases returns

private theorem endsFree_insertKey64 (obj : Obj) :
    EndsFree (insertKey64 (dhashIndex64 cmp64) (some obj)) := by
  refine .after _ fun _ => .after _ fun ref => .after _ fun _ => .after _ fun _ => ?_
  exact endsFree_unlock.before fun _ _ => rfl

private theorem endsFree_insertKeystr (obj : Obj) :
    EndsFree (insertKeystr (dhashIndex64 cmp64) (some obj)) := by
  refine .after _ fun _ => .after _ fun ref => .after _ fun _ => .after _ fun _ => ?_
  exact endsFree_unlock.before fun _ _ => rfl

private theorem endsFree_removeObj (obj : Obj) :
    EndsFree (removeObj (dhashIndex64 cmp64) (some obj)) := by
  refine .after _ fun _ => .after _ fun _ => .after _ fun _ => ?_
  exact endsFree_unlock.before fun _ _ => rfl

private theorem endsFree_refObj (obj : Option Obj) : EndsFree (refObj (ι := DHashObj) obj) := by
  refine .after _ fun _ => ?_
  cases obj with
  | none => exact endsFree_throw _
  | some obj => exact .after _ fun _ => .after _ fun _ => endsFree_unlock

private theorem endsFree_clear : EndsFree (clear (dhashIndex64 cmp64)) := by
  refine .after _ fun _ => .after _ fun _ => .after _ fun _ => .after _ fun _ => ?_
  split
  · exact .after _ fun _ => endsFree_unlock
  · exact endsFree_unlock

private theorem endsFree_lookupWith {find : DHashObj → Option (Option Obj × DHashObj)}
    {missed : Option Obj} {insert : Option Obj → LruM DHashObj Bool}
    (inserts : ∀ save, EndsFree (insert (some save))) :
    EndsFree (lookupWith find missed insert) := by
  refine .after _ fun _ => .after _ fun obj => ?_
  cases obj with
  | some obj => exact endsFree_unlock.before fun _ _ => rfl
  | none =>
      cases missed with
      | none => exact endsFree_unlock.before fun _ _ => rfl
      | some save =>
          exact .after _ fun _ => .after _ fun _ => (inserts save).before fun _ _ => rfl

private theorem endsFree_lookupCbWith {find : DHashObj → Option (Option Obj × DHashObj)} :
    EndsFree (lookupCbWith find) := by
  refine .after _ fun _ => .after _ fun obj => ?_
  cases obj with
  | some obj => exact endsFree_unlock.before fun _ _ => rfl
  | none => exact endsFree_unlock.before fun _ _ => rfl

/-- An operation that returns leaves the mutex free. -/
theorem free_invoke {self : LruTable DHashObj} (free : self.mLock.held = false) {op : LruOp}
    (returns : (invoke cmp64 user self op).1 = true) :
    (invoke cmp64 user self op).2.mLock.held = false := by
  cases op with
  | insertKey64 obj =>
      cases obj with
      | none => exact free
      | some obj => exact endsFree_insertKey64 obj self returns
  | insertKeystr obj =>
      cases obj with
      | none => exact free
      | some obj => exact endsFree_insertKeystr obj self returns
  | removeObj obj =>
      cases obj with
      | none => exact free
      | some obj => exact endsFree_removeObj obj self returns
  | refObj obj => exact endsFree_refObj obj self returns
  | clear => exact endsFree_clear self returns
  | lookup64 key => exact endsFree_lookupWith endsFree_insertKey64 self returns
  | lookupStr key => exact endsFree_lookupWith endsFree_insertKeystr self returns
  | lookupString key => exact endsFree_lookupWith endsFree_insertKeystr self returns
  | lookupCb64 key => exact endsFree_lookupCbWith self returns
  | lookupCbStr key => exact endsFree_lookupCbWith self returns
  | lookupCbString key => exact endsFree_lookupCbWith self returns

end EndsFree

/-! ## Runs -/

/-- The lookup that an operation is, and whether it has a callback. -/
def LruOp.asLookup : LruOp → Option (LookupKey × Bool)
  | .lookup64 key => some (.key64 key, false)
  | .lookupStr key => some (.str key, false)
  | .lookupString key => some (.string key, false)
  | .lookupCb64 key => some (.key64 key, true)
  | .lookupCbStr key => some (.str key, true)
  | .lookupCbString key => some (.string key, true)
  | _ => none

/-- The kind of key that an operation inserts objects under. -/
def LruOp.inserts : LruOp → Option KeyKind
  | .insertKey64 _ | .lookup64 _ => some .key64
  | .insertKeystr _ | .lookupStr _ | .lookupString _ => some .keystr
  | _ => none

/-- An operation, and what the functions of the user answer while it runs. -/
structure Call where
  op : LruOp
  user : LruUser

/-- A cache, and the kind of key that each of its objects was inserted under. -/
structure Filled where
  table : LruTable DHashObj
  kind : Obj → Option KeyKind

namespace Filled

variable (cmp64 : Key64 → Key64 → Int)

/-- The cache after an operation. Objects that were not resident before are there by it. -/
def after (state : Filled) (op : LruOp) (table : LruTable DHashObj) : Filled where
  table := table
  kind := fun obj => if obj ∈ state.table.mLru then state.kind obj else op.inserts

/-- A lookup returns the object it delivers. -/
def step (state : Filled) (call : Call) : Option (Filled × Option Obj) :=
  match call.op.asLookup with
  | some (key, callback) =>
      match exec (key.lookupBy cmp64 call.user callback) state.table with
      | (.ok obj, table) => some (state.after call.op table, obj)
      | (.error _, _) => none
  | none =>
      if (invoke cmp64 call.user state.table call.op).1 then
        some (state.after call.op (invoke cmp64 call.user state.table call.op).2, none)
      else none

def machine : Machine Filled Call (Option Obj) := ⟨step cmp64⟩

/-- A new cache. -/
def Initial (state : Filled) : Prop := LruTable.Initial state.table

/-- The object that `lookup_missed` allocates is in no container. -/
def Fresh (state : Filled) (save : Obj) : Prop :=
  state.table.lruPtr save = false ∧ state.table.mHash.mem.mChain save = false

/-- Removals and references take residents, and `lookup_missed` allocates a fresh object. -/
def Legal (state : Filled) (call : Call) : Prop :=
  state.table.OnResidents call.op ∧ ∀ key callback, call.op.asLookup = some (key, callback) →
    ∃ save, key.missed call.user = some save ∧ state.Fresh save

/-- The object is resident, inserted under the key. -/
def Under (state : Filled) (key : LookupKey) (obj : Obj) : Prop :=
  obj ∈ state.table.mLru ∧ state.kind obj = some key.kind ∧ key.Of state.table.mHash.mem obj

/-- What a lookup that delivers `obj` should do, where the other form leaves `twin`. -/
structure Delivers (state : Filled) (key : LookupKey) (obj : Obj)
    (next twin : LruTable DHashObj) : Prop where
  own : obj ∈ state.table.mLru → key.Of state.table.mHash.mem obj
  finds : ∀ ref, state.Under key ref → obj ∈ state.table.mLru
  residents : ∀ ref, ref ∈ next.mLru ↔ ref ∈ twin.mLru
  hits : next.mHitCnt ≠ state.table.mHitCnt ↔ obj ∈ state.table.mLru
  misses : next.mMissCnt ≠ state.table.mMissCnt ↔ obj ∉ state.table.mLru

/-- Both forms deliver the same object, and this one does what it should. -/
def LookupRight (state : Filled) (user : LruUser) (key : LookupKey) (callback : Bool) : Prop :=
  ∃ obj next twin, exec (key.lookupBy cmp64 user callback) state.table = (.ok (some obj), next) ∧
    exec (key.lookupBy cmp64 user !callback) state.table = (.ok (some obj), twin) ∧
    state.Delivers key obj next twin

/-- Every lookup is right. -/
def Right (state : Filled) (call : Call) : Prop :=
  ∀ key callback, call.op.asLookup = some (key, callback) →
    state.LookupRight cmp64 call.user key callback

/-- The lookups have no callback, and the first object in the slot of the key that compares equal
has that key. -/
def MeetsOwn (state : Filled) (call : Call) : Prop :=
  ∀ key callback, call.op.asLookup = some (key, callback) → callback = false ∧
    ∃ obj, key.First cmp64 call.user state.table.mHash obj ∧ key.Of state.table.mHash.mem obj

variable {cmp64} {state : Filled}

/-! ## One lookup -/

private theorem counter_moves (count : BitVec 32) : count + 1 ≠ count := by simp

section Lookup

variable {user : LruUser} (resident : state.table.Resident DHashObj.Resides)
  (free : state.table.mLock.held = false) (key : LookupKey)
include resident free

/-- A lookup with a callback counts the wrong way round. -/
theorem not_lookupRight_callback {save : Obj} (allocates : key.missed user = some save)
    (fresh : save ∉ state.table.mLru) : ¬ state.LookupRight cmp64 user key true := by
  rintro ⟨obj, next, twin, ran, -, delivers⟩
  change exec (key.lookupCb cmp64 user) state.table = _ at ran
  cases found : key.find cmp64 user state.table.mHash with
  | none =>
      rw [LookupKey.exec_lookupCb_aborts free key found] at ran
      cases ran
  | some result =>
      obtain ⟨answer, hash⟩ := result
      cases answer with
      | some ref =>
          rw [LookupKey.exec_lookupCb_hit free key found] at ran
          cases ran
          have inside := (LookupKey.find_resides resident.holds key found).2 obj rfl
          exact delivers.hits.mpr inside rfl
      | none =>
          rw [LookupKey.exec_lookupCb_miss free key found, allocates] at ran
          cases ran
          exact fresh (delivers.hits.mp (counter_moves _))

/-- A lookup that misses leaves a resident that the other form does not leave, or counts a hit. -/
theorem not_lookupRight_missed {save : Obj} (allocates : key.missed user = some save)
    (fresh : save ∉ state.table.mLru) {hash : DHashObj}
    (found : key.find cmp64 user state.table.mHash = some (none, hash)) :
    ¬ state.LookupRight cmp64 user key false := by
  rintro ⟨obj, next, twin, ran, other, delivers⟩
  change exec (key.lookup cmp64 user) state.table = _ at ran
  change exec (key.lookupCb cmp64 user) state.table = _ at other
  rw [LookupKey.exec_lookup_miss free key found allocates] at ran
  rw [LookupKey.exec_lookupCb_miss free key found, allocates] at other
  cases other
  have still := resident.missed (LookupKey.find_resides resident.holds key found).1
  obtain ⟨ret, after, inserted, same⟩ := exec_bind_isOk (show (exec (do
    let _ ← key.insert cmp64 (some save)
    return some save) (state.table.missed hash)).1.isOk by rw [ran]; rfl)
  rw [same] at ran
  cases ran
  rcases LookupKey.insert_shows still rfl key inserted with inside | counted
  · exact fresh ((delivers.residents save).mp inside)
  · refine fresh (delivers.hits.mp ?_)
    rw [counted]
    exact counter_moves _

/-- A lookup without a callback that finds an object with its key is right. -/
theorem lookupRight_of_found {obj : Obj} {hash : DHashObj}
    (found : key.find cmp64 user state.table.mHash = some (some obj, hash))
    (own : key.Of state.table.mHash.mem obj) : state.LookupRight cmp64 user key false := by
  have inside := (LookupKey.find_resides resident.holds key found).2 obj rfl
  refine ⟨obj, _, _, LookupKey.exec_lookup_hit free key found,
    LookupKey.exec_lookupCb_hit free key found, ?_⟩
  constructor
  · exact fun _ => own
  · exact fun _ _ => inside
  · exact fun _ => Iff.rfl
  · exact iff_of_true (counter_moves _) inside
  · exact iff_of_false (fun differs => differs rfl) fun absent => absent inside

theorem lookupRight_iff {callback : Bool} {save : Obj} (allocates : key.missed user = some save)
    (fresh : save ∉ state.table.mLru) :
    state.LookupRight cmp64 user key callback ↔ callback = false ∧
      ∃ obj, key.First cmp64 user state.table.mHash obj ∧ key.Of state.table.mHash.mem obj := by
  cases callback with
  | true =>
      refine iff_of_false (not_lookupRight_callback resident free key allocates fresh) ?_
      exact fun both => Bool.noConfusion both.1
  | false =>
      constructor
      · intro right
        cases found : key.find cmp64 user state.table.mHash with
        | none =>
            obtain ⟨obj, next, twin, ran, -⟩ := right
            change exec (key.lookup cmp64 user) state.table = _ at ran
            rw [LookupKey.exec_lookup_aborts free key found] at ran
            cases ran
        | some result =>
            obtain ⟨answer, hash⟩ := result
            cases answer with
            | none =>
                exact (not_lookupRight_missed resident free key allocates fresh found right).elim
            | some ref =>
                obtain ⟨obj, next, twin, ran, -, delivers⟩ := right
                change exec (key.lookup cmp64 user) state.table = _ at ran
                rw [LookupKey.exec_lookup_hit free key found] at ran
                cases ran
                have inside := (LookupKey.find_resides resident.holds key found).2 ref rfl
                exact ⟨rfl, ref, (LookupKey.find_iff resident.holds key).mp ⟨hash, found⟩,
                  delivers.own inside⟩
      · rintro ⟨-, obj, first, own⟩
        obtain ⟨hash, found⟩ := (LookupKey.find_iff resident.holds key).mpr first
        exact lookupRight_of_found resident free key found own

end Lookup

/-! ## Every run -/

/-- The operation of a lookup is that lookup. -/
theorem invoke_lookup {user : LruUser} {table : LruTable DHashObj} {op : LruOp} {key : LookupKey}
    {callback : Bool} (lookup : op.asLookup = some (key, callback)) :
    invoke cmp64 user table op = ((exec (key.lookupBy cmp64 user callback) table).1.isOk,
      (exec (key.lookupBy cmp64 user callback) table).2) := by
  have called (find : DHashObj → Option (Option Obj × DHashObj)) (missed : Option Obj) :
      ((exec (lookupCbWith find) table).1.isOk, (exec (lookupCbWith find) table).2) =
        ((exec (do
            match ← lookupCbWith find with
            | some obj => return some obj
            | none => return missed) table).1.isOk,
          (exec (do
            match ← lookupCbWith find with
            | some obj => return some obj
            | none => return missed) table).2) := by
    rw [exec_bind]
    rcases exec (lookupCbWith find) table with ⟨result, next⟩
    cases result with
    | error fault => rfl
    | ok found =>
        cases found with
        | some obj => rfl
        | none => rfl
  cases op with
  | lookup64 key => cases lookup; rfl
  | lookupStr key => cases lookup; rfl
  | lookupString key => cases lookup; rfl
  | lookupCb64 key => cases lookup; exact called _ _
  | lookupCbStr key => cases lookup; exact called _ _
  | lookupCbString key => cases lookup; exact called _ _
  | insertKey64 obj => cases lookup
  | insertKeystr obj => cases lookup
  | removeObj obj => cases lookup
  | refObj obj => cases lookup
  | clear => cases lookup

/-- A step takes the cache where the operation takes it. -/
theorem step_table {call : Call} {next : Filled} {found : Option Obj}
    (stepped : (machine cmp64).step state call = some (next, found)) :
    (invoke cmp64 call.user state.table call.op).1 = true ∧
      next.table = (invoke cmp64 call.user state.table call.op).2 := by
  change (match call.op.asLookup with
    | some (key, callback) => _
    | none => _) = _ at stepped
  cases lookup : call.op.asLookup with
  | some result =>
      obtain ⟨key, callback⟩ := result
      rw [lookup] at stepped
      rw [invoke_lookup lookup]
      rcases ran : exec (key.lookupBy cmp64 call.user callback) state.table with ⟨result, table⟩
      simp only [ran] at stepped
      cases result with
      | ok obj =>
          cases stepped
          exact ⟨rfl, rfl⟩
      | error fault => cases stepped
  | none =>
      rw [lookup] at stepped
      by_cases returns : (invoke cmp64 call.user state.table call.op).1 = true
      · simp only [returns, if_true] at stepped
        cases stepped
        exact ⟨returns, rfl⟩
      · simp only [returns] at stepped
        cases stepped

private theorem preserves_resident : (machine cmp64).Preserves Legal fun state =>
    state.table.Resident DHashObj.Resides ∧ state.table.mLock.held = false := by
  intro state call next found holds legal stepped
  obtain ⟨returns, same⟩ := step_table stepped
  rw [same]
  exact ⟨resident_invoke holds.1 legal.1 returns, free_invoke holds.2 returns⟩

/-- A lookup of a run is right exactly where it meets an object of its own. -/
theorem right_iff_meetsOwn (resident : state.table.Resident DHashObj.Resides)
    (free : state.table.mLock.held = false) {call : Call} (legal : state.Legal call) :
    state.Right cmp64 call ↔ state.MeetsOwn cmp64 call := by
  refine forall_congr' fun key => forall_congr' fun callback => imp_congr_right fun lookup => ?_
  obtain ⟨save, allocates, fresh⟩ := legal.2 key callback lookup
  refine lookupRight_iff resident free key allocates fun member => ?_
  have linked := resident.linked save member
  rw [fresh.1] at linked
  cases linked

/-- **The lookups of a run.** All of them are right exactly when each is made without a callback and
meets an object with its key first. -/
theorem lookups_right_iff (cmp64 : Key64 → Key64 → Int) {start : Filled} (initial : Initial start)
    {calls : List Call} (legal : (machine cmp64).Meets Legal start calls) :
    (machine cmp64).Meets (Right cmp64) start calls ↔
      (machine cmp64).Meets (MeetsOwn cmp64) start calls := by
  refine preserves_resident.meets_congr ?_ ⟨resident_initial initial, ?_⟩ legal
  · exact fun state call holds legal => right_iff_meetsOwn holds.1 holds.2 legal
  · obtain ⟨maxElm, mem, lruPtr, -, new⟩ := initial
    rw [new]
    rfl

/-- A new cache for two objects, over objects whose keys are their numbers. -/
def numbered : Filled where
  table := LruTable.init 2
    ⟨⟨BitVec.ofNat 64, fun _ => ⟨[], CStr.ended_nil⟩, fun _ => false, fun _ => none⟩,
      dhashInit 2⟩ fun _ => false
  kind := fun _ => none

private theorem initial_numbered : Initial numbered := ⟨2, _, _, by decide, rfl⟩

/-- A user whose `lookup_missed` allocates object 9. -/
def allocatesNine : LruUser :=
  ⟨fun _ => some 9, fun _ => some 9, fun _ => ⟨[], CStr.ended_nil⟩⟩

/-- Object 7 is resident. -/
def seven : Filled :=
  numbered.after (.insertKey64 (some 7))
    (invoke objCompare64 allocatesNine numbered.table (.insertKey64 (some 7))).2

theorem run_seven : (machine objCompare64).run numbered [⟨.insertKey64 (some 7), allocatesNine⟩] =
    some (seven, [none]) := by
  have returns : (invoke objCompare64 allocatesNine numbered.table
      (.insertKey64 (some 7))).1 = true := by decide +kernel
  have stepped : (machine objCompare64).step numbered ⟨.insertKey64 (some 7), allocatesNine⟩ =
      some (seven, none) := by
    change (if (invoke objCompare64 allocatesNine numbered.table
      (.insertKey64 (some 7))).1 then _ else none) = _
    rw [if_pos returns]
    rfl
  rw [Machine.run_cons_of_step stepped]
  rfl

theorem lookups_right_iff_seven :
    (machine objCompare64).Meets (Right objCompare64) numbered
      [⟨.insertKey64 (some 7), allocatesNine⟩, ⟨.lookup64 7, allocatesNine⟩] := by
  have inserting {guard : Filled → Call → Prop}
      (met : guard numbered ⟨.insertKey64 (some 7), allocatesNine⟩) :
      (machine objCompare64).Meets guard numbered [⟨.insertKey64 (some 7), allocatesNine⟩] :=
    (Machine.meets_nil guard numbered).concat rfl met
  have keyed : (LookupKey.key64 7).Of seven.table.mHash.mem 7 := by
    change seven.table.mHash.mem.objKey64 7 = 7
    decide +kernel
  refine (lookups_right_iff objCompare64 initial_numbered ?_).mpr ?_
  · have begun : (machine objCompare64).Meets Legal numbered
        [⟨.insertKey64 (some 7), allocatesNine⟩] :=
      inserting ⟨trivial, fun _ _ lookup => by cases lookup⟩
    refine begun.concat run_seven ⟨trivial, ?_⟩
    intro key callback lookup
    cases lookup
    exact ⟨9, rfl, by decide +kernel, by decide +kernel⟩
  · have begun : (machine objCompare64).Meets (MeetsOwn objCompare64) numbered
        [⟨.insertKey64 (some 7), allocatesNine⟩] := inserting fun _ _ lookup => by cases lookup
    refine begun.concat run_seven ?_
    intro key callback lookup
    cases lookup
    exact ⟨rfl, 7, ⟨by decide +kernel, fun _ => by decide +kernel⟩, keyed⟩

/-- A lookup with a callback counts a hit in an empty cache. -/
theorem lookupCb64_not_right : Initial numbered ∧
    (machine objCompare64).Meets Legal numbered [⟨.lookupCb64 7, allocatesNine⟩] ∧
    ¬ (machine objCompare64).Meets (Right objCompare64) numbered
      [⟨.lookupCb64 7, allocatesNine⟩] := by
  refine ⟨initial_numbered, ⟨⟨trivial, ?_⟩, fun _ _ _ => trivial⟩, ?_⟩
  · intro key callback lookup
    cases lookup
    exact ⟨9, rfl, rfl, rfl⟩
  · rintro ⟨right, -⟩
    exact not_lookupRight_callback (resident_initial initial_numbered) rfl (.key64 7) rfl
      List.not_mem_nil (right (.key64 7) true rfl)

end Filled

end LruTable

end Tvntd
