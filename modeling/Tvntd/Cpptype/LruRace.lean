import Tvntd.Cpptype.LruLock

/-! # Callers that miss at the same time

A lookup by 64-bit key is three sections: the search, the allocation of a new
object and its insertion. Other callers run in between. An insertion that finds
the key already there keeps the resident object, and the lookup returns its own.
-/

namespace Tvntd

namespace LruTable

/-! ## The keys of the objects -/

section Keys

variable {α β : Type}

/-- The keys of the objects are as before, however the operation ends. -/
def KeepsKeys (op : LruM DHashObj α) : Prop :=
  ∀ self, (exec op self).2.mHash.mem.objKey64 = self.mHash.mem.objKey64

theorem KeepsKeys.bind {first : LruM DHashObj α} {second : α → LruM DHashObj β}
    (start : KeepsKeys first) (rest : ∀ value, KeepsKeys (second value)) :
    KeepsKeys (first >>= second) := by
  intro self
  have begins := start self
  rw [exec_bind]
  rcases ran : exec first self with ⟨result, next⟩
  rw [ran] at begins
  cases result with
  | ok value => exact (rest value next).trans begins
  | error fault => exact begins

theorem keepsKeys_pure (value : α) : KeepsKeys (pure value : LruM DHashObj α) := fun _ => rfl

private theorem keepsKeys_throw (fault : Fault) : KeepsKeys (throw fault : LruM DHashObj α) :=
  fun _ => rfl

private theorem keepsKeys_lock : KeepsKeys pthreadMutexLock := by
  intro self
  cases held : self.mLock.held with
  | true => rw [exec_lock_held held]; rfl
  | false => rw [exec_lock held]; rfl

private theorem keepsKeys_unlock : KeepsKeys pthreadMutexUnlock := fun _ => rfl

private theorem keepsKeys_countHit : KeepsKeys countHit := fun _ => rfl

private theorem keepsKeys_countMiss : KeepsKeys countMiss := fun _ => rfl

private theorem keepsKeys_countKick : KeepsKeys countKick := fun _ => rfl

private theorem keepsKeys_hashLookup {find : DHashObj → Option (Option Obj × DHashObj)}
    (keeps : ∀ hash found next, find hash = some (found, next) →
      next.mem.objKey64 = hash.mem.objKey64) : KeepsKeys (hashLookup find) := by
  intro self
  cases found : find self.mHash with
  | none =>
      rw [exec_hashLookup_none found]
  | some result =>
      rw [exec_hashLookup found]
      exact keeps _ _ _ found

private theorem keepsKeys_hashUpdate {update : DHashObj → Option DHashObj}
    (keeps : ∀ hash next, update hash = some next → next.mem.objKey64 = hash.mem.objKey64) :
    KeepsKeys (hashUpdate update) := by
  intro self
  cases updated : update self.mHash with
  | none =>
      rw [exec_hashUpdate_none updated]
  | some next =>
      rw [exec_hashUpdate updated]
      exact keeps _ _ updated

private theorem keepsKeys_objAddBack (obj : Obj) : KeepsKeys (objAddBack (ι := DHashObj) obj) := by
  intro self
  cases linked : self.lruPtr obj with
  | true => rw [exec_objAddBack_linked linked]
  | false => rw [exec_objAddBack linked]

private theorem keepsKeys_objRm (obj : Obj) : KeepsKeys (objRm (ι := DHashObj) obj) := by
  intro self
  cases linked : self.lruPtr obj with
  | true => rw [exec_objRm linked]
  | false => rw [exec_objRm_free linked]

private theorem keepsKeys_dlRmFront : KeepsKeys dlRmFront := by
  intro self
  cases front : self.mLru with
  | nil =>
      have nothing : exec dlRmFront self = (.ok none, self) := by
        rw [dlRmFront, exec_bind_of_ok _ (show exec get self = (.ok self, self) from rfl), front]
        rfl
      rw [nothing]
  | cons old rest =>
      cases linked : self.lruPtr old with
      | true => rw [exec_dlRmFront front linked]
      | false =>
          have aborts : exec dlRmFront self = (.error .assertion, self) := by
            rw [dlRmFront, exec_bind_of_ok _ (show exec get self = (.ok self, self) from rfl),
              front]
            dsimp only
            rw [if_neg (by rw [linked]; exact Bool.false_ne_true)]
            rfl
          rw [aborts]

private theorem keepsKeys_get : KeepsKeys get := fun _ => rfl

private theorem KeepsKeys.ite {holds : Prop} [Decidable holds] {first second : LruM DHashObj α}
    (left : KeepsKeys first) (right : KeepsKeys second) :
    KeepsKeys (if holds then first else second) := by
  split
  · exact left
  · exact right

variable {cmp64 : Key64 → Key64 → Int}

private theorem keepsKeys_search64 (key : DHashObj → Key64) :
    KeepsKeys (hashLookup fun hash => (dhashIndex64 cmp64).lookup64 hash (key hash)) := by
  apply keepsKeys_hashLookup
  intro hash found next looked
  obtain ⟨result, -, same⟩ := Option.map_eq_some_iff.mp looked
  cases same
  rfl

private theorem keepsKeys_searchStr (key : DHashObj → CStr) :
    KeepsKeys (hashLookup fun hash => (dhashIndex64 cmp64).lookupStr hash (key hash)) := by
  apply keepsKeys_hashLookup
  intro hash found next looked
  obtain ⟨result, -, same⟩ := Option.map_eq_some_iff.mp looked
  cases same
  rfl

private theorem keepsKeys_removeElm (obj : Obj) :
    KeepsKeys (hashUpdate fun hash => (dhashIndex64 cmp64).removeObj hash obj) := by
  apply keepsKeys_hashUpdate
  intro hash next removed
  change (if hash.mem.mChain obj then _ else _) = _ at removed
  split at removed
  · cases removed
    rfl
  · cases removed

private theorem keys_insertLink {hash next : DHashObj} {obj : Obj} {hashFn : HashFn Link}
    (inserted : (hash.insertLink obj hashFn).map Prod.snd = some next) :
    next.mem.objKey64 = hash.mem.objKey64 := by
  obtain ⟨result, linked, rfl⟩ := Option.map_eq_some_iff.mp inserted
  unfold DHashObj.insertLink at linked
  split at linked
  · cases linked
  · obtain ⟨placed, -, rfl⟩ := Option.map_eq_some_iff.mp linked
    rfl

private theorem keepsKeys_addMissed {insert : DHashObj → Option DHashObj} (obj : Obj)
    (keeps : ∀ hash next, insert hash = some next → next.mem.objKey64 = hash.mem.objKey64) :
    KeepsKeys (addMissed insert obj) := by
  apply keepsKeys_countMiss.bind
  intro _
  apply (keepsKeys_hashUpdate keeps).bind
  intro _
  exact keepsKeys_objAddBack obj

private theorem keepsKeys_refObjNolock (obj : Obj) : KeepsKeys (refObjNolock (ι := DHashObj) obj) :=
  (keepsKeys_objRm obj).bind fun _ => keepsKeys_objAddBack obj

private theorem keepsKeys_kickLoop (turns : Nat) :
    KeepsKeys (kickLoop (dhashIndex64 cmp64) turns) := by
  induction turns with
  | zero =>
      apply keepsKeys_get.bind
      intro _
      apply keepsKeys_get.bind
      intro _
      exact (keepsKeys_throw _).ite (keepsKeys_pure _)
  | succ turns ih =>
      apply keepsKeys_get.bind
      intro _
      apply keepsKeys_get.bind
      intro _
      refine KeepsKeys.ite (keepsKeys_dlRmFront.bind fun old => ?_) (keepsKeys_pure _)
      cases old with
      | none => exact keepsKeys_throw _
      | some old =>
          exact keepsKeys_countKick.bind fun _ => (keepsKeys_removeElm old).bind fun _ => ih

private theorem keepsKeys_finish (ret : Bool) : KeepsKeys (do
    kickOver (dhashIndex64 cmp64)
    pthreadMutexUnlock
    return ret) := by
  refine KeepsKeys.bind (keepsKeys_get.bind fun _ => keepsKeys_kickLoop _) fun _ => ?_
  exact keepsKeys_unlock.bind fun _ => keepsKeys_pure ret

private theorem keepsKeys_insertKey64 (obj : Option Obj) :
    KeepsKeys (insertKey64 (dhashIndex64 cmp64) obj) := by
  cases obj with
  | none => exact keepsKeys_pure false
  | some obj =>
      refine keepsKeys_lock.bind fun _ => (keepsKeys_search64 _).bind fun ref => ?_
      refine KeepsKeys.bind ?_ fun _ => keepsKeys_finish true
      cases ref with
      | none => exact keepsKeys_addMissed obj fun _ _ inserted => keys_insertLink inserted
      | some ref => exact keepsKeys_countHit.bind fun _ => keepsKeys_refObjNolock ref

private theorem keepsKeys_refObj (obj : Option Obj) : KeepsKeys (refObj (ι := DHashObj) obj) := by
  refine keepsKeys_lock.bind fun _ => ?_
  cases obj with
  | none => exact keepsKeys_throw _
  | some obj =>
      exact (keepsKeys_objRm obj).bind fun _ => (keepsKeys_objAddBack obj).bind fun _ =>
        keepsKeys_unlock

private theorem keepsKeys_insertKeystr (obj : Option Obj) :
    KeepsKeys (insertKeystr (dhashIndex64 cmp64) obj) := by
  cases obj with
  | none => exact keepsKeys_pure false
  | some obj =>
      refine keepsKeys_lock.bind fun _ => (keepsKeys_searchStr _).bind fun ref => ?_
      refine KeepsKeys.bind ?_ fun ret => keepsKeys_finish ret
      cases ref with
      | none =>
          refine (keepsKeys_addMissed obj fun _ _ inserted => keys_insertLink inserted).bind ?_
          exact fun _ => keepsKeys_pure true
      | some ref =>
          exact keepsKeys_countHit.bind fun _ => (keepsKeys_refObj (some ref)).bind fun _ =>
            keepsKeys_pure false

private theorem keepsKeys_removeObj (obj : Option Obj) :
    KeepsKeys (removeObj (dhashIndex64 cmp64) obj) := by
  cases obj with
  | none => exact keepsKeys_pure false
  | some obj =>
      exact keepsKeys_lock.bind fun _ => (keepsKeys_objRm obj).bind fun _ =>
        (keepsKeys_removeElm obj).bind fun _ => keepsKeys_unlock.bind fun _ => keepsKeys_pure true

private theorem keepsKeys_clearLoop (turns : Nat) :
    KeepsKeys (clearLoop (dhashIndex64 cmp64) turns) := by
  induction turns with
  | zero => exact keepsKeys_pure ()
  | succ turns ih =>
      refine keepsKeys_dlRmFront.bind fun old => ?_
      cases old with
      | none => exact keepsKeys_pure ()
      | some old => exact (keepsKeys_removeElm old).bind fun _ => ih

private theorem keepsKeys_clear : KeepsKeys (clear (dhashIndex64 cmp64)) := by
  refine keepsKeys_lock.bind fun _ => keepsKeys_get.bind fun _ => ?_
  refine (keepsKeys_clearLoop _).bind fun _ => keepsKeys_get.bind fun _ => ?_
  exact ((keepsKeys_throw _).bind fun _ => keepsKeys_unlock).ite keepsKeys_unlock

private theorem keepsKeys_lookupWith {find : DHashObj → Option (Option Obj × DHashObj)}
    {missed : Option Obj} {insert : Option Obj → LruM DHashObj Bool}
    (searches : KeepsKeys (hashLookup find)) (inserts : ∀ save, KeepsKeys (insert save)) :
    KeepsKeys (lookupWith find missed insert) := by
  refine keepsKeys_lock.bind fun _ => searches.bind fun obj => keepsKeys_unlock.bind fun _ => ?_
  cases obj with
  | some obj => exact keepsKeys_countHit.bind fun _ => keepsKeys_pure (some obj)
  | none =>
      refine keepsKeys_countMiss.bind fun _ => ?_
      cases missed with
      | none => exact keepsKeys_pure none
      | some save => exact (inserts (some save)).bind fun _ => keepsKeys_pure (some save)

private theorem keepsKeys_lookupCbWith {find : DHashObj → Option (Option Obj × DHashObj)}
    (searches : KeepsKeys (hashLookup find)) : KeepsKeys (lookupCbWith find) := by
  refine keepsKeys_lock.bind fun _ => searches.bind fun obj => keepsKeys_unlock.bind fun _ => ?_
  cases obj with
  | none => exact keepsKeys_countHit.bind fun _ => keepsKeys_pure none
  | some obj => exact keepsKeys_countMiss.bind fun _ => keepsKeys_pure (some obj)

/-- No public operation changes the key of an object. -/
theorem keys_invoke (user : LruUser) (self : LruTable DHashObj) (op : LruOp) :
    (invoke cmp64 user self op).2.mHash.mem.objKey64 = self.mHash.mem.objKey64 := by
  cases op with
  | insertKey64 obj => exact keepsKeys_insertKey64 obj self
  | insertKeystr obj => exact keepsKeys_insertKeystr obj self
  | removeObj obj => exact keepsKeys_removeObj obj self
  | refObj obj => exact keepsKeys_refObj obj self
  | clear => exact keepsKeys_clear self
  | lookup64 key =>
      exact keepsKeys_lookupWith (keepsKeys_search64 fun _ => key) keepsKeys_insertKey64 self
  | lookupStr key =>
      exact keepsKeys_lookupWith (keepsKeys_searchStr fun _ => key) keepsKeys_insertKeystr self
  | lookupString key =>
      exact keepsKeys_lookupWith (keepsKeys_searchStr fun _ => user.stringBytes key)
        keepsKeys_insertKeystr self
  | lookupCb64 key => exact keepsKeys_lookupCbWith (keepsKeys_search64 fun _ => key) self
  | lookupCbStr key => exact keepsKeys_lookupCbWith (keepsKeys_searchStr fun _ => key) self
  | lookupCbString key =>
      exact keepsKeys_lookupCbWith (keepsKeys_searchStr fun _ => user.stringBytes key) self

end Keys

/-! ## The sections of a lookup -/

section Sections

variable (cmp64 : Key64 → Key64 → Int)

/-- A lookup until it returns or calls `lookup_missed`. -/
def findStep (key : Key64) : LruM DHashObj (Option Obj) := do
  pthreadMutexLock
  let obj ← hashLookup fun hash => (dhashIndex64 cmp64).lookup64 hash key
  pthreadMutexUnlock
  match obj with
  | some obj => do
      countHit
      return some obj
  | none => do
      countMiss
      return none

inductive Phase where
  | idle
  | missed
  | allocated (save : Obj)
  | returned (obj : Obj)
  deriving DecidableEq

/-- The table, where every caller is, and the objects that the callers allocated. -/
structure Race where
  table : LruTable DHashObj
  phase : Nat → Phase
  made : List Obj

namespace Race

def move (state : Race) (table : LruTable DHashObj) (caller : Nat) (phase : Phase) : Race :=
  { state with table := table, phase := Function.update state.phase caller phase }

/-- The object a new user is constructed in: it has the key and is in no container. -/
def Fresh (key : Key64) (state : Race) (save : Obj) : Prop :=
  save ∉ state.made ∧ state.table.lruPtr save = false ∧
    state.table.mHash.mem.mChain save = false ∧ state.table.mHash.mem.objKey64 save = key

instance (key : Key64) (state : Race) (save : Obj) : Decidable (Fresh key state save) :=
  inferInstanceAs (Decidable (_ ∧ _))

/-- One section of a caller, or an operation of another thread. -/
inductive Section where
  | find (caller : Nat)
  | allocate (caller : Nat) (save : Obj)
  | insert (caller : Nat)
  | other (op : LruOp)

variable (user : LruUser) (key : Key64)

def step (state : Race) : Section → Option (Race × Unit)
  | .find caller =>
      match state.phase caller with
      | .idle =>
          match exec (findStep cmp64 key) state.table with
          | (.ok (some obj), table) => some (state.move table caller (.returned obj), ())
          | (.ok none, table) => some (state.move table caller .missed, ())
          | (.error _, _) => none
      | _ => none
  | .allocate caller save =>
      if state.phase caller = .missed ∧ Fresh key state save then
        some ({ state.move state.table caller (.allocated save) with
          made := save :: state.made }, ())
      else none
  | .insert caller =>
      match state.phase caller with
      | .allocated save =>
          match exec (LruTable.insertKey64 (dhashIndex64 cmp64) (some save)) state.table with
          | (.ok _, table) => some (state.move table caller (.returned save), ())
          | (.error _, _) => none
      | _ => none
  | .other op =>
      if (invoke cmp64 user state.table op).1 then
        some ({ state with table := (invoke cmp64 user state.table op).2 }, ())
      else none

def machine : Machine Race Section Unit := ⟨step cmp64 user key⟩

/-- The object is resident under the key. -/
def Under (key : Key64) (table : LruTable DHashObj) (obj : Obj) : Prop :=
  obj ∈ table.mLru ∧ table.mHash.mem.objKey64 obj = key

/-- All callers that returned have the same object, the one that is resident under the key. -/
structure Agree (state : Race) : Prop where
  resident : ∀ caller obj, state.phase caller = .returned obj → Under key state.table obj
  only : ∀ caller obj, state.phase caller = .returned obj →
    ∀ other, Under key state.table other → other = obj
  same : ∀ caller other obj ref, state.phase caller = .returned obj →
    state.phase other = .returned ref → obj = ref

/-- No caller has begun. -/
def Initial (state : Race) : Prop :=
  state.table.Resident DHashObj.Resides ∧ ∀ caller, state.phase caller = .idle

/-- What other threads do leaves the objects under the key alone. -/
def Elsewhere (state : Race) : Section → Prop
  | .other op => state.table.OnResidents op ∧
      ∀ obj, Under key (invoke cmp64 user state.table op).2 obj ↔ Under key state.table obj
  | _ => True

/-- A search by the key finds the object that is resident under it. -/
def SearchRight (table : LruTable DHashObj) : Prop :=
  ∀ found next, table.mHash.lookup64 cmp64 key = some (found, next) →
    ∀ obj, Under key table obj ↔ found = some obj

/-- The hash takes no object for another, and no caller inserts once an object is resident. -/
def Alone (state : Race) : Section → Prop
  | .find _ => SearchRight cmp64 key state.table
  | .insert _ => SearchRight cmp64 key state.table ∧ ∀ obj, ¬ Under key state.table obj
  | _ => True

/-! ## One section -/

variable {cmp64} {user} {key} {state next : Race} {table : LruTable DHashObj}

private theorem keepsKeys_findStep : KeepsKeys (findStep cmp64 key) := by
  refine keepsKeys_lock.bind fun _ => (keepsKeys_search64 fun _ => key).bind fun obj => ?_
  refine keepsKeys_unlock.bind fun _ => ?_
  cases obj with
  | some obj => exact keepsKeys_countHit.bind fun _ => keepsKeys_pure (some obj)
  | none => exact keepsKeys_countMiss.bind fun _ => keepsKeys_pure none

/-- A search leaves the objects and their keys as they were. -/
theorem of_findStep (resident : table.Resident DHashObj.Resides) {found : Option Obj}
    {after : LruTable DHashObj} (ran : exec (findStep cmp64 key) table = (.ok found, after)) :
    (∃ hash, table.mHash.lookup64 cmp64 key = some (found, hash)) ∧
      after.Resident DHashObj.Resides ∧ ∀ obj, Under key after obj ↔ Under key table obj := by
  have returns : (exec (findStep cmp64 key) table).1.isOk := by
    rw [ran]
    rfl
  have free : table.mLock.held = false := free_of_isOk returns
  have objects := @keepsKeys_findStep cmp64 key table
  rw [ran] at objects
  unfold findStep at ran
  cases looked : table.mHash.lookup64 cmp64 key with
  | none =>
      rw [exec_search_none free looked] at ran
      cases ran
  | some result =>
      obtain ⟨answer, hash⟩ := result
      have holds := (resident.holds.lookup64 looked).2.1
      have still := resident.searched holds
      rw [exec_search free looked] at ran
      cases answer with
      | some obj =>
          cases ran
          refine ⟨⟨hash, rfl⟩, ⟨⟨still.holds, still.linked⟩, still.positive, still.bounded⟩, ?_⟩
          intro other
          unfold Under
          rw [objects]
          exact Iff.rfl
      | none =>
          cases ran
          refine ⟨⟨hash, rfl⟩, ⟨⟨still.holds, still.linked⟩, still.positive, still.bounded⟩, ?_⟩
          intro other
          unfold Under
          rw [objects]
          exact Iff.rfl

/-- An insertion that misses makes its object resident, and no other. -/
theorem of_insert_missed (resident : table.Resident DHashObj.Resides) {save : Obj}
    {middle : DHashObj}
    (looked : table.mHash.lookup64 cmp64 (table.mHash.mem.objKey64 save) = some (none, middle))
    {ret : Bool} {after : LruTable DHashObj}
    (ran : exec (LruTable.insertKey64 (dhashIndex64 cmp64) (some save)) table = (.ok ret, after)) :
    after.Resident DHashObj.Resides ∧ save ∈ after.mLru ∧
      ∀ other ∈ after.mLru, other ∈ table.mLru ∨ other = save := by
  have returns : (exec (LruTable.insertKey64 (dhashIndex64 cmp64) (some save)) table).1.isOk := by
    rw [ran]
    rfl
  have free : table.mLock.held = false := free_of_isOk returns
  rcases @insertKey64_ends cmp64 table save resident free with
    ⟨⟨ref, hash, found⟩, -⟩ | ⟨-, unlinked, newly⟩ | ⟨-, stopped⟩
  · rw [looked] at found
    cases found
  · obtain ⟨reached, ended, -, still, -, inside, -⟩ := newly
    obtain ⟨mem, holds, -⟩ := resident.holds.lookup64 looked
    have takes := (resident.holds.takes_iff holds mem).mpr unlinked.1
    obtain ⟨hash, inserted⟩ := holds.insertKey64_of_takes cmp64 takes
    obtain ⟨final, -, evicted, -⟩ := exec_insertKey64_miss (dhashIndex64_laws cmp64)
      (dhashIndex64_searches64 cmp64) resident free looked inserted unlinked.2
    rw [ended] at ran
    cases ran
    refine ⟨still, inside, ?_⟩
    rw [ended] at evicted
    cases evicted
    intro other member
    have before := List.mem_of_mem_drop member
    rcases List.mem_append.mp before with old | new
    · exact Or.inl old
    · exact Or.inr (List.mem_singleton.mp new)
  · obtain ⟨reached, ended, -⟩ := stopped
    rw [ended] at ran
    cases ran

/-! ## Runs -/

/-- What every section keeps: the agreement, and the keys of the objects to be inserted. -/
structure Racing (key : Key64) (state : Race) : Prop where
  resident : state.table.Resident DHashObj.Resides
  agree : Agree key state
  keyed : ∀ caller save, state.phase caller = .allocated save →
    state.table.mHash.mem.objKey64 save = key

private theorem racing_initial (initial : Initial state) : Racing key state := by
  obtain ⟨resident, idle⟩ := initial
  have none : ∀ caller obj, state.phase caller ≠ .returned obj := by
    intro caller obj returned
    rw [idle] at returned
    cases returned
  refine ⟨resident, ⟨?_, ?_, ?_⟩, ?_⟩
  · exact fun caller obj returned => absurd returned (none caller obj)
  · exact fun caller obj returned => absurd returned (none caller obj)
  · exact fun caller _ obj _ returned => absurd returned (none caller obj)
  · intro caller save allocated
    rw [idle] at allocated
    cases allocated

/-- A table with the same objects under the key agrees with the same callers. -/
theorem Agree.of_under (agree : Agree key state) {after : Race} (phase : after.phase = state.phase)
    (under : ∀ obj, Under key after.table obj ↔ Under key state.table obj) :
    Agree key after := by
  constructor
  · intro caller obj returned
    rw [phase] at returned
    exact (under obj).mpr (agree.resident caller obj returned)
  · intro caller obj returned other inside
    rw [phase] at returned
    exact agree.only caller obj returned other ((under other).mp inside)
  · rw [phase]
    exact agree.same

/-- A caller that has not returned may move on to anything but a return. -/
theorem Agree.move (agree : Agree key state) {caller : Nat} {phase : Phase}
    (open_ : ∀ obj, phase ≠ .returned obj)
    (under : ∀ obj, Under key table obj ↔ Under key state.table obj) :
    Agree key (state.move table caller phase) := by
  have others : ∀ other obj, (state.move table caller phase).phase other = .returned obj →
      state.phase other = .returned obj := by
    intro other obj returned
    by_cases same : other = caller
    · subst same
      exact absurd ((Function.update_self _ _ _).symm.trans returned) (open_ obj)
    · exact (Function.update_of_ne same _ _).symm.trans returned
  constructor
  · exact fun other obj returned => (under obj).mpr (agree.resident other obj (others _ _ returned))
  · exact fun other obj returned ref inside =>
      agree.only other obj (others _ _ returned) ref ((under ref).mp inside)
  · exact fun left right obj ref first second =>
      agree.same left right obj ref (others _ _ first) (others _ _ second)

/-- A caller may return the one object that is resident, where the others returned it too. -/
theorem agree_return {caller : Nat} {obj : Obj} (resident : Under key table obj)
    (only : ∀ other, Under key table other → other = obj)
    (others : ∀ other ref, state.phase other = .returned ref → ref = obj) :
    Agree key (state.move table caller (.returned obj)) := by
  have all : ∀ other ref, (state.move table caller (.returned obj)).phase other = .returned ref →
      ref = obj := by
    intro other ref returned
    by_cases same : other = caller
    · subst same
      have here := (Function.update_self _ _ _).symm.trans returned
      exact (Phase.returned.inj here).symm
    · exact others other ref ((Function.update_of_ne same _ _).symm.trans returned)
  constructor
  · intro other ref returned
    rw [all other ref returned]
    exact resident
  · intro other ref returned third inside
    rw [all other ref returned]
    exact only third inside
  · intro left right first second one two
    rw [all left first one, all right second two]

private theorem keyed_move {caller : Nat} {phase : Phase}
    (keyed : ∀ caller save, state.phase caller = .allocated save →
      state.table.mHash.mem.objKey64 save = key)
    (keys : table.mHash.mem.objKey64 = state.table.mHash.mem.objKey64)
    (moves : ∀ save, phase = .allocated save → state.table.mHash.mem.objKey64 save = key) :
    ∀ other save, (state.move table caller phase).phase other = .allocated save →
      (state.move table caller phase).table.mHash.mem.objKey64 save = key := by
  intro other save allocated
  change table.mHash.mem.objKey64 save = key
  rw [keys]
  by_cases same : other = caller
  · subst same
    exact moves save ((Function.update_self _ _ _).symm.trans allocated)
  · exact keyed other save ((Function.update_of_ne same _ _).symm.trans allocated)

theorem Racing.find (racing : Racing key state) {caller : Nat}
    (right : SearchRight cmp64 key state.table)
    (stepped : (machine cmp64 user key).step state (.find caller) = some (next, ())) :
    Racing key next := by
  change step cmp64 user key state (.find caller) = some (next, ()) at stepped
  simp only [step] at stepped
  have kept := @keepsKeys_findStep cmp64 key state.table
  split at stepped
  · split at stepped
    · rename_i obj table ran
      cases stepped
      obtain ⟨⟨hash, looked⟩, resident, under⟩ := of_findStep racing.resident ran
      rw [ran] at kept
      have found := right _ _ looked
      have here : Under key state.table obj := (found obj).mpr rfl
      refine ⟨resident, agree_return ((under obj).mpr here) ?_ ?_, ?_⟩
      · intro other inside
        exact (Option.some_inj.mp ((found other).mp ((under other).mp inside))).symm
      · intro other ref returned
        have there := racing.agree.resident other ref returned
        exact (Option.some_inj.mp ((found ref).mp there)).symm
      · exact keyed_move racing.keyed kept fun save none => by cases none
    · rename_i table ran
      cases stepped
      obtain ⟨-, resident, under⟩ := of_findStep racing.resident ran
      rw [ran] at kept
      refine ⟨resident, racing.agree.move (fun obj none => by cases none) under, ?_⟩
      exact keyed_move racing.keyed kept fun save none => by cases none
    · cases stepped
  · cases stepped

private theorem Racing.allocate (racing : Racing key state) {caller : Nat} {save : Obj}
    (stepped : (machine cmp64 user key).step state (.allocate caller save) = some (next, ())) :
    Racing key next := by
  change step cmp64 user key state (.allocate caller save) = some (next, ()) at stepped
  simp only [step] at stepped
  split at stepped
  · rename_i allowed
    obtain ⟨-, -, -, -, keyed⟩ := allowed
    cases stepped
    have moved : Agree key (state.move state.table caller (.allocated save)) :=
      racing.agree.move (fun obj none => by cases none) fun _ => Iff.rfl
    refine ⟨racing.resident, moved.of_under rfl fun _ => Iff.rfl, ?_⟩
    exact keyed_move racing.keyed rfl fun other same => by
      cases same
      exact keyed
  · cases stepped

theorem Racing.insert (racing : Racing key state) {caller : Nat}
    (right : SearchRight cmp64 key state.table) (vacant : ∀ obj, ¬ Under key state.table obj)
    (stepped : (machine cmp64 user key).step state (.insert caller) = some (next, ())) :
    Racing key next := by
  change step cmp64 user key state (.insert caller) = some (next, ()) at stepped
  simp only [step] at stepped
  split at stepped
  · rename_i save allocated
    have keyed := racing.keyed caller save allocated
    split at stepped
    · rename_i ret table ran
      cases stepped
      have kept := @keepsKeys_insertKey64 cmp64 (some save) state.table
      rw [ran] at kept
      -- nothing is resident, so that the search of the insertion misses
      have missed : ∃ middle, state.table.mHash.lookup64 cmp64
          (state.table.mHash.mem.objKey64 save) = some (none, middle) := by
        rw [keyed]
        cases looked : state.table.mHash.lookup64 cmp64 key with
        | none =>
            have returns : (exec (LruTable.insertKey64 (dhashIndex64 cmp64) (some save))
                state.table).1.isOk := by
              rw [ran]
              rfl
            have aborts := @exec_insertKey64_aborts _ (dhashIndex64 cmp64) state.table save
              (free_of_isOk returns) (Or.inl (by rw [← looked, ← keyed]; rfl))
            obtain ⟨reached, ended, -⟩ := aborts
            rw [ended] at ran
            cases ran
        | some result =>
            obtain ⟨answer, middle⟩ := result
            cases answer with
            | none => exact ⟨middle, rfl⟩
            | some ref => exact absurd ((right _ _ looked ref).mpr rfl) (vacant ref)
      obtain ⟨middle, looked⟩ := missed
      obtain ⟨resident, inside, residents⟩ := of_insert_missed racing.resident looked ran
      refine ⟨resident, agree_return ⟨inside, by rw [kept]; exact keyed⟩ ?_ ?_, ?_⟩
      · rintro other ⟨member, under⟩
        rcases residents other member with old | new
        · exact absurd ⟨old, by rw [← kept]; exact under⟩ (vacant other)
        · exact new
      · intro other ref returned
        exact absurd (racing.agree.resident other ref returned) (vacant ref)
      · exact keyed_move racing.keyed kept fun other none => by cases none
    · cases stepped
  · cases stepped

theorem Racing.other (racing : Racing key state) {op : LruOp}
    (elsewhere : Elsewhere cmp64 user key state (.other op))
    (stepped : (machine cmp64 user key).step state (.other op) = some (next, ())) :
    Racing key next := by
  change step cmp64 user key state (.other op) = some (next, ()) at stepped
  simp only [step] at stepped
  split at stepped
  · rename_i returns
    cases stepped
    refine ⟨resident_invoke racing.resident elsewhere.1 returns,
      racing.agree.of_under rfl elsewhere.2, ?_⟩
    intro caller save allocated
    change (invoke cmp64 user state.table op).2.mHash.mem.objKey64 save = key
    rw [keys_invoke]
    exact racing.keyed caller save allocated
  · cases stepped

/-- One section keeps the callers in agreement. -/
theorem Racing.preserves : (machine cmp64 user key).Preserves
    (fun state label => Elsewhere cmp64 user key state label ∧ Alone cmp64 key state label)
      (Racing key) := by
  rintro state label next ⟨⟩ racing ⟨elsewhere, alone⟩ stepped
  cases label with
  | find caller => exact racing.find alone stepped
  | allocate caller save => exact racing.allocate stepped
  | insert caller => exact racing.insert alone.1 alone.2 stepped
  | other op => exact racing.other elsewhere stepped

/-- **The callers of one key.** In every run in which no caller inserts once an object is
resident, all callers that have returned have the object that is resident. -/
theorem callers_agree (cmp64 : Key64 → Key64 → Int) (user : LruUser) (key : Key64)
    {start final : Race} (initial : Initial start) {labels : List Section}
    (elsewhere : (machine cmp64 user key).Meets (Elsewhere cmp64 user key) start labels)
    (alone : (machine cmp64 user key).Meets (Alone cmp64 key) start labels)
    {outputs : List Unit}
    (ran : (machine cmp64 user key).run start labels = some (final, outputs)) :
    Agree key final :=
  (Racing.preserves.run (racing_initial initial) (elsewhere.and alone) ran).agree

private theorem ended_sameKey : 0#8 ∉ ([97] : List Byte) := by decide

/-- A cache for two elements and objects under one key. -/
def sameKey : Race where
  table := LruTable.init 2 ⟨⟨fun _ => 7, fun _ => ⟨[97], ended_sameKey⟩, fun _ => false,
    fun _ => none⟩, dhashInit 2⟩ fun _ => false
  phase := fun _ => .idle
  made := []

private theorem initial_sameKey : Initial sameKey :=
  ⟨resident_initial ⟨2, _, _, by decide, rfl⟩, fun _ => rfl⟩

/-- A cache with one object, or none. -/
theorem searchRight_of_only {cmp64 : Key64 → Key64 → Int} {key : Key64}
    {table : LruTable DHashObj} {found : Option Obj} (listed : table.mLru = found.toList)
    (keyed : ∀ obj ∈ found, table.mHash.mem.objKey64 obj = key)
    (looked : (table.mHash.lookup64 cmp64 key).map Prod.fst = some found) :
    SearchRight cmp64 key table := by
  intro other next again obj
  rw [again, Option.map_some, Option.some.injEq] at looked
  subst looked
  rw [Under, listed, Option.mem_toList]
  exact and_iff_left_of_imp (keyed obj)

/-- What is resident behind the first sections, and what a search finds then. -/
theorem run_sameKey (labels : List Section) (found : Option Obj)
    (known : ((machine objCompare64 noUser 7).run sameKey labels).map (fun final =>
      (final.1.table.mLru, found.map final.1.table.mHash.mem.objKey64,
        (final.1.table.mHash.lookup64 objCompare64 7).map Prod.fst)) =
          some (found.toList, found.map fun _ => 7, some found)) :
    ∃ final outputs, (machine objCompare64 noUser 7).run sameKey labels = some (final, outputs) ∧
      final.table.mLru = found.toList ∧ SearchRight objCompare64 7 final.table := by
  obtain ⟨⟨final, outputs⟩, ran, same⟩ := Option.map_eq_some_iff.mp known
  obtain ⟨listed, rest⟩ := Prod.mk.inj same
  obtain ⟨keyed, looked⟩ := Prod.mk.inj rest
  refine ⟨final, outputs, ran, listed, searchRight_of_only listed ?_ looked⟩
  rintro obj rfl
  exact Option.some.inj keyed

theorem callers_agree_second :
    ∃ final outputs, (machine objCompare64 noUser 7).run sameKey
        [.find 0, .allocate 0 1, .insert 0, .find 1] = some (final, outputs) ∧
      Agree 7 final := by
  have runs : ((machine objCompare64 noUser 7).run sameKey
      [.find 0, .allocate 0 1, .insert 0, .find 1]).isSome := by decide +kernel
  obtain ⟨⟨final, outputs⟩, ran⟩ := Option.isSome_iff_exists.mp runs
  refine ⟨final, outputs, ran, callers_agree objCompare64 noUser 7 initial_sameKey ?_ ?_ ran⟩
  · exact ⟨trivial, fun _ _ _ => ⟨trivial, fun _ _ _ => ⟨trivial, fun _ _ _ =>
      ⟨trivial, fun _ _ _ => trivial⟩⟩⟩⟩
  · have start : (machine objCompare64 noUser 7).Meets (Alone objCompare64 7) sameKey [] := trivial
    obtain ⟨_, _, ran, -, search⟩ := run_sameKey [] none (by decide +kernel)
    have first : (machine objCompare64 noUser 7).Meets (Alone objCompare64 7) sameKey
        [.find 0] := start.concat ran search
    obtain ⟨_, _, ran, -, -⟩ := run_sameKey [.find 0] none (by decide +kernel)
    have second : (machine objCompare64 noUser 7).Meets (Alone objCompare64 7) sameKey
        [.find 0, .allocate 0 1] := first.concat ran trivial
    obtain ⟨_, _, ran, empty, search⟩ :=
      run_sameKey [.find 0, .allocate 0 1] none (by decide +kernel)
    have third : (machine objCompare64 noUser 7).Meets (Alone objCompare64 7) sameKey
        [.find 0, .allocate 0 1, .insert 0] :=
      second.concat ran ⟨search, fun obj under => List.not_mem_nil (empty ▸ under.1)⟩
    obtain ⟨_, _, ran, -, search⟩ :=
      run_sameKey [.find 0, .allocate 0 1, .insert 0] (some 1) (by decide +kernel)
    exact third.concat ran search

/-- Two callers that both miss return two objects, of which the first is resident. -/
theorem exists_callers_not_agree :
    ∃ final outputs, (machine objCompare64 noUser 7).run sameKey
        [.find 0, .find 1, .allocate 0 1, .allocate 1 2, .insert 0, .insert 1] =
          some (final, outputs) ∧
      final.phase 0 = .returned 1 ∧ final.phase 1 = .returned 2 ∧ final.table.mLru = [1] ∧
        ¬ Agree 7 final := by
  have runs : ((machine objCompare64 noUser 7).run sameKey
      [.find 0, .find 1, .allocate 0 1, .allocate 1 2, .insert 0, .insert 1]).map
        (fun final => (final.1.phase 0, final.1.phase 1, final.1.table.mLru)) =
          some (.returned 1, .returned 2, [1]) := by decide +kernel
  obtain ⟨⟨final, outputs⟩, ran, same⟩ := Option.map_eq_some_iff.mp runs
  obtain ⟨first, rest⟩ := Prod.mk.inj same
  obtain ⟨second, resident⟩ := Prod.mk.inj rest
  refine ⟨final, outputs, ran, first, second, resident, fun agree => ?_⟩
  exact absurd (agree.same 0 1 1 2 first second) (by decide)

end Race

end Sections

end LruTable

end Tvntd
