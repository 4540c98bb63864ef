import Tvntd.Lib.Machine
import Tvntd.Cpptype.LruHash

/-! # The lock of an `LruTable`

The public operations over any table whose hash and `m_lru` hold the same
objects. An operation is disciplined when it locks `m_lock` only while the
thread does not hold it and unlocks once for each time it locked
(`Disciplined`). `insert_keystr` locks twice when it hits, and `insert_key64`
returns `true` then although nothing was added.
-/

namespace Tvntd

namespace LruTable

/-- Whether the thread holds the mutex after some calls; `none` once a call finds the mutex in
the wrong state. -/
def lockAfter : Bool → List LockCall → Option Bool
  | held, [] => some held
  | false, .lock :: rest => lockAfter true rest
  | true, .unlock :: rest => lockAfter false rest
  | true, .lock :: _ => none
  | false, .unlock :: _ => none

section Discipline

variable {ι α β : Type} {self next final : LruTable ι}

/-- The calls on the mutex between two states alternate and leave it as it was. -/
def Disciplined (self next : LruTable ι) : Prop :=
  ∃ made, next.mLock.calls = self.mLock.calls ++ made ∧
    lockAfter self.mLock.held made = some self.mLock.held

private theorem disciplined_iff {made : List LockCall}
    (calls : next.mLock.calls = self.mLock.calls ++ made) :
    Disciplined self next ↔ lockAfter self.mLock.held made = some self.mLock.held := by
  constructor
  · rintro ⟨other, same, alternate⟩
    rw [calls, List.append_cancel_left_eq] at same
    exact same ▸ alternate
  · exact fun alternate => ⟨made, calls, alternate⟩

private theorem disciplined_refl (self : LruTable ι) : Disciplined self self :=
  ⟨[], (List.append_nil _).symm, rfl⟩

/-- One lock and one unlock of a free mutex. -/
theorem disciplined_of_pair (free : self.mLock.held = false)
    (calls : next.mLock.calls = self.mLock.calls ++ [LockCall.lock] ++ [LockCall.unlock]) :
    Disciplined self next := by
  rw [List.append_assoc] at calls
  rw [disciplined_iff calls, free]
  rfl

/-- A disciplined start does not matter for the discipline of the rest. -/
theorem disciplined_after (free : self.mLock.held = false) (freed : next.mLock.held = false)
    (calls : next.mLock.calls = self.mLock.calls ++ [LockCall.lock] ++ [LockCall.unlock])
    {made : List LockCall} (more : final.mLock.calls = next.mLock.calls ++ made) :
    Disciplined self final ↔ Disciplined next final := by
  have whole : final.mLock.calls =
      self.mLock.calls ++ ([LockCall.lock, LockCall.unlock] ++ made) := by
    rw [more, calls]
    simp
  rw [disciplined_iff whole, disciplined_iff more, free, freed]
  rfl

/-- A thread that stops with the mutex it locked is not disciplined. -/
theorem not_disciplined_of_locked (calls : next.mLock = self.locked.mLock) :
    ¬ Disciplined self next := by
  have made : next.mLock.calls = self.mLock.calls ++ [LockCall.lock] := by
    rw [calls]
    rfl
  rw [disciplined_iff made]
  cases self.mLock.held with
  | true => exact fun same => by cases same
  | false => exact fun same => by cases same

private theorem not_disciplined_of_relocked (calls : next.mLock = self.locked.locked.mLock) :
    ¬ Disciplined self next := by
  have made : next.mLock.calls = self.mLock.calls ++ [LockCall.lock, LockCall.lock] := by
    rw [calls]
    exact List.append_assoc _ _ _
  rw [disciplined_iff made]
  cases self.mLock.held with
  | true => exact fun same => by cases same
  | false => exact fun same => by cases same

/-- No operation that starts with a lock is disciplined while its thread holds the mutex. -/
theorem not_disciplined_of_held (held : self.mLock.held = true) (rest : Unit → LruM ι α) :
    ¬ Disciplined self (exec (pthreadMutexLock >>= rest) self).2 := by
  rw [exec_bind_of_error rest (exec_lock_held held)]
  exact not_disciplined_of_locked rfl

end Discipline

/-! ## The public operations -/

inductive LruOp where
  | insertKey64 (obj : Option Obj)
  | insertKeystr (obj : Option Obj)
  | removeObj (obj : Option Obj)
  | refObj (obj : Option Obj)
  | clear
  | lookup64 (key : Key64)
  | lookupStr (key : CStr)
  | lookupString (key : List Byte)
  | lookupCb64 (key : Key64)
  | lookupCbStr (key : CStr)
  | lookupCbString (key : List Byte)

section Conditions

variable (cmp64 : Key64 → Key64 → Int) (user : LruUser)

/-- `m_hash.lookup(obj->obj_key64())` returns an object. -/
def Hits64 (hash : DHashObj) (obj : Obj) : Prop :=
  ∃ ref next, hash.lookup64 cmp64 (hash.mem.objKey64 obj) = some (some ref, next)

/-- `m_hash.lookup(obj->obj_key64())` returns null. -/
def Misses64 (hash : DHashObj) (obj : Obj) : Prop :=
  ∃ next, hash.lookup64 cmp64 (hash.mem.objKey64 obj) = some (none, next)

/-- `m_hash.lookup(obj->obj_keystr())` returns null. -/
def MissesStr (hash : DHashObj) (obj : Obj) : Prop :=
  ∃ next, hash.lookupStr (hash.mem.objKeystr obj) = some (none, next)

/-- Neither link of the object is in use, and `m_hash` can count one more. -/
def Unlinked (self : LruTable DHashObj) (obj : Obj) : Prop :=
  self.mHash.Takes obj ∧ self.lruPtr obj = false

/-- A lookup whose search returns, and whose insertion of a missed object meets a condition. -/
def LookupSafe (self : LruTable DHashObj) (found : Option (Option Obj × DHashObj))
    (missed : Option Obj) (safe : LruTable DHashObj → Obj → Prop) : Prop :=
  ∃ answer hash, found = some (answer, hash) ∧
    (answer = none → ∀ save, missed = some save → safe { self with mHash := hash } save)

/-- `insert_key64` and its unlock are reached. -/
def InsertSafe64 (self : LruTable DHashObj) (obj : Obj) : Prop :=
  Hits64 cmp64 self.mHash obj ∨ Misses64 cmp64 self.mHash obj ∧ self.Unlinked obj

def InsertSafeStr (self : LruTable DHashObj) (obj : Obj) : Prop :=
  MissesStr self.mHash obj ∧ self.Unlinked obj

/-- When an operation does what it should. -/
def SafeWhen (self : LruTable DHashObj) : LruOp → Prop
  | .insertKey64 none | .insertKeystr none | .removeObj none => True
  | .insertKey64 (some obj) =>
      self.mLock.held = false ∧ Misses64 cmp64 self.mHash obj ∧ self.Unlinked obj
  | .insertKeystr (some obj) =>
      self.mLock.held = false ∧ MissesStr self.mHash obj ∧ self.Unlinked obj
  | .removeObj (some obj) =>
      self.mLock.held = false ∧ self.lruPtr obj = true ∧ self.mHash.mem.mChain obj = true
  | .refObj obj => self.mLock.held = false ∧ ∃ ref, obj = some ref ∧ self.lruPtr ref = true
  | .clear => self.mLock.held = false
  | .lookup64 key => self.mLock.held = false ∧
      self.LookupSafe (self.mHash.lookup64 cmp64 key) (user.lookupMissed64 key)
        (InsertSafe64 cmp64)
  | .lookupStr key => self.mLock.held = false ∧
      self.LookupSafe (self.mHash.lookupStr key) (user.lookupMissedStr key.bytes) InsertSafeStr
  | .lookupString key => self.mLock.held = false ∧
      self.LookupSafe (self.mHash.lookupStr (user.stringBytes key)) (user.lookupMissedStr key)
        InsertSafeStr
  | .lookupCb64 key => self.mLock.held = false ∧ (self.mHash.lookup64 cmp64 key).isSome
  | .lookupCbStr key => self.mLock.held = false ∧ (self.mHash.lookupStr key).isSome
  | .lookupCbString key =>
      self.mLock.held = false ∧ (self.mHash.lookupStr (user.stringBytes key)).isSome

/-- Whether the operation returns, and the state it returns or stops in. -/
def invoke (self : LruTable DHashObj) (op : LruOp) : Bool × LruTable DHashObj :=
  let ix := dhashIndex64 cmp64
  let ends {α : Type} (body : LruM DHashObj α) : Bool × LruTable DHashObj :=
    ((exec body self).1.isOk, (exec body self).2)
  match op with
  | .insertKey64 obj => ends (LruTable.insertKey64 ix obj)
  | .insertKeystr obj => ends (LruTable.insertKeystr ix obj)
  | .removeObj obj => ends (LruTable.removeObj ix obj)
  | .refObj obj => ends (LruTable.refObj obj)
  | .clear => ends (LruTable.clear ix)
  | .lookup64 key => ends (LruTable.lookup64 ix user key)
  | .lookupStr key => ends (LruTable.lookupStr ix user key)
  | .lookupString key => ends (LruTable.lookupString ix user key)
  | .lookupCb64 key => ends (LruTable.lookupCb64 ix key)
  | .lookupCbStr key => ends (LruTable.lookupCbStr ix key)
  | .lookupCbString key => ends (LruTable.lookupCbString ix user key)

/-- The object was not resident, and now it is: in `m_lru`, and in the bucket of its key. -/
def NewlyResident (under : DHashObj → Obj → Prop) (self next : LruTable DHashObj) (obj : Obj) :
    Prop :=
  obj ∉ self.mLru ∧ obj ∈ next.mLru ∧ under next.mHash obj

/-- An insertion returns, and it returns `true` exactly when its object is newly resident. -/
def ReturnsNew (under : DHashObj → Obj → Prop) (self : LruTable DHashObj) (obj : Option Obj)
    (ended : Except Fault Bool × LruTable DHashObj) : Prop :=
  ∃ ret, ended.1 = .ok ret ∧
    (ret = true ↔ ∃ new, obj = some new ∧ NewlyResident under self ended.2 new)

/-- What every public operation should do. -/
def Correct (self : LruTable DHashObj) (op : LruOp) : Prop :=
  Disciplined self (invoke cmp64 user self op).2 ∧
    match op with
    | .insertKey64 obj => ReturnsNew DHashObj.Under64 self obj
        (exec (LruTable.insertKey64 (dhashIndex64 cmp64) obj) self)
    | .insertKeystr obj => ReturnsNew DHashObj.UnderStr self obj
        (exec (LruTable.insertKeystr (dhashIndex64 cmp64) obj) self)
    | _ => True

end Conditions

/-! ## Insertions -/

section Insertions

variable {cmp64 : Key64 → Key64 → Int} {self : LruTable DHashObj} {obj : Obj}

/-- The thread locked and unlocked once. -/
def Paired (self next : LruTable DHashObj) : Prop := next.mLock = self.locked.unlocked.mLock

theorem Paired.disciplined {next : LruTable DHashObj} (paired : Paired self next)
    (free : self.mLock.held = false) : Disciplined self next := by
  refine disciplined_of_pair free ?_
  rw [show next.mLock = _ from paired]
  rfl

/-- An object that an insertion added is newly resident: it is the last to be evicted. -/
theorem newlyResident_of_missEnds {under : DHashObj → Obj → Prop} {hash : DHashObj}
    {insert : LruM DHashObj Bool} (resident : self.Resident DHashObj.Resides)
    (fresh : obj ∉ self.mLru)
    (stays : ∀ {gone : List Obj} {final : DHashObj}, obj ∉ gone → gone.foldlM DHashObj.removeObj hash = some final →
      under final obj)
    (ends : MissEnds (dhashIndex64 cmp64) DHashObj.Resides self hash obj insert) :
    ∃ next, exec insert self = (.ok true, next) ∧ Paired self next ∧
      next.Resident DHashObj.Resides ∧ NewlyResident under self next obj := by
  obtain ⟨final, folded, ran, still⟩ := ends
  have count : (self.added hash obj).surplus ≤ self.mLru.length := by
    have bounded := resident.bounded
    have positive := resident.positive
    change (self.mLru ++ [obj]).length - self.mMaxElm.toNat ≤ _
    rw [List.length_append, List.length_singleton]
    omega
  refine ⟨_, ran, rfl, still.unlocked, fresh, ?_, ?_⟩
  · change obj ∈ (self.mLru ++ [obj]).drop (self.added hash obj).surplus
    rw [List.drop_append_of_le_length count]
    exact List.mem_append_right _ (List.mem_singleton.mpr rfl)
  · refine stays ?_ folded
    rw [List.take_append_of_le_length count]
    exact fun inside => fresh (List.mem_of_mem_take inside)

theorem fresh_of_takes (resident : self.Resident DHashObj.Resides) (takes : self.mHash.Takes obj) :
    obj ∉ self.mLru := by
  intro member
  have held := resident.holds.held obj member
  rw [takes.1] at held
  cases held

private theorem stays_under64 {hash : DHashObj} (placed : hash.Under64 obj) {gone : List Obj}
    {final : DHashObj} (other : obj ∉ gone)
    (folded : gone.foldlM DHashObj.removeObj hash = some final) : final.Under64 obj := by
  obtain ⟨linked, sized, keys, -⟩ := DHashObj.removeObjs_others other folded placed
  unfold DHashObj.Under64
  rw [sized, keys]
  exact linked

private theorem stays_underStr {hash : DHashObj} (placed : hash.UnderStr obj) {gone : List Obj}
    {final : DHashObj} (other : obj ∉ gone)
    (folded : gone.foldlM DHashObj.removeObj hash = some final) : final.UnderStr obj := by
  obtain ⟨linked, sized, -, names⟩ := DHashObj.removeObjs_others other folded placed
  unfold DHashObj.UnderStr
  rw [sized, names]
  exact linked

/-- The three ways `insert_key64` ends. -/
theorem insertKey64_ends (resident : self.Resident DHashObj.Resides)
    (free : self.mLock.held = false) :
    (Hits64 cmp64 self.mHash obj ∧ ∃ next,
      exec (LruTable.insertKey64 (dhashIndex64 cmp64) (some obj)) self = (.ok true, next) ∧
        Paired self next ∧ next.Resident DHashObj.Resides ∧ (obj ∈ next.mLru → obj ∈ self.mLru)) ∨
    (Misses64 cmp64 self.mHash obj ∧ self.Unlinked obj ∧ ∃ next,
      exec (LruTable.insertKey64 (dhashIndex64 cmp64) (some obj)) self = (.ok true, next) ∧
        Paired self next ∧ next.Resident DHashObj.Resides ∧
        NewlyResident DHashObj.Under64 self next obj) ∨
    (¬ InsertSafe64 cmp64 self obj ∧
      self.Aborts (LruTable.insertKey64 (dhashIndex64 cmp64) (some obj))) := by
  have laws := dhashIndex64_laws cmp64
  have searches := dhashIndex64_searches64 cmp64
  cases looked : self.mHash.lookup64 cmp64 (self.mHash.mem.objKey64 obj) with
  | none =>
      refine .inr (.inr ⟨?_, exec_insertKey64_aborts free (.inl looked)⟩)
      rintro (⟨ref, next, found⟩ | ⟨⟨next, found⟩, -⟩)
      · rw [looked] at found
        cases found
      · rw [looked] at found
        cases found
  | some result =>
      obtain ⟨answer, middle⟩ := result
      cases answer with
      | some ref =>
          have member := (searches.keeps resident.holds looked).2 ref rfl
          have holds := (searches.keeps resident.holds looked).1
          refine .inl ⟨⟨ref, middle, looked⟩, _,
            exec_insertKey64_hit laws searches resident free looked, rfl,
            (resident.locked.hit laws holds member).unlocked, ?_⟩
          exact fun inside => (perm_touched member).mem_iff.mpr inside
      | none =>
          obtain ⟨mem, holds, -⟩ := resident.holds.lookup64 looked
          by_cases unlinked : self.Unlinked obj
          · have takes := (resident.holds.takes_iff holds mem).mpr unlinked.1
            obtain ⟨hash, inserted⟩ := holds.insertKey64_of_takes cmp64 takes
            have placed := (holds.insertKey64 inserted).2.2
            exact .inr (.inl ⟨⟨middle, looked⟩, unlinked, newlyResident_of_missEnds resident
              (fresh_of_takes resident unlinked.1) (stays_under64 placed)
              (exec_insertKey64_miss laws searches resident free looked inserted unlinked.2)⟩)
          · refine .inr (.inr ⟨?_, exec_insertKey64_aborts free (.inr ⟨middle, looked, ?_⟩)⟩)
            · rintro (⟨ref, next, found⟩ | ⟨-, other⟩)
              · rw [looked] at found
                cases found
              · exact unlinked other
            · by_cases linked : self.lruPtr obj = true
              · exact .inr linked
              · refine .inl (Option.eq_none_iff_forall_ne_some.mpr ?_)
                intro hash inserted
                have takes := (resident.holds.takes_iff holds mem).mp
                  (holds.insertKey64 inserted).1
                exact unlinked ⟨takes, Bool.eq_false_iff.mpr linked⟩

/-- The three ways `insert_keystr` ends. -/
theorem insertKeystr_ends (cmp64 : Key64 → Key64 → Int)
    (resident : self.Resident DHashObj.Resides) (free : self.mLock.held = false) :
    (self.InsertSafeStr obj ∧ ∃ next,
      exec (LruTable.insertKeystr (dhashIndex64 cmp64) (some obj)) self = (.ok true, next) ∧
        Paired self next ∧ next.Resident DHashObj.Resides ∧
        NewlyResident DHashObj.UnderStr self next obj) ∨
    (¬ self.InsertSafeStr obj ∧ ∃ fault next,
      exec (LruTable.insertKeystr (dhashIndex64 cmp64) (some obj)) self = (.error fault, next) ∧
        (next.mLock = self.locked.mLock ∨ next.mLock = self.locked.locked.mLock)) := by
  have laws := dhashIndex64_laws cmp64
  have searches := dhashIndex64_searchesStr cmp64
  cases looked : self.mHash.lookupStr (self.mHash.mem.objKeystr obj) with
  | none =>
      have aborts : self.Aborts (LruTable.insertKeystr (dhashIndex64 cmp64) (some obj)) :=
        exec_insertKeystr_aborts free (.inl looked)
      obtain ⟨next, stopped, lock⟩ := aborts
      refine .inr ⟨?_, _, next, stopped, .inl lock⟩
      rintro ⟨⟨next, found⟩, -⟩
      rw [looked] at found
      cases found
  | some result =>
      obtain ⟨answer, middle⟩ := result
      cases answer with
      | some ref =>
          have relocks : ∃ next, exec (LruTable.insertKeystr (dhashIndex64 cmp64) (some obj)) self =
              (.error .deadlock, next) ∧ next.mLock = self.locked.locked.mLock :=
            exec_insertKeystr_hit free looked
          obtain ⟨next, stopped, lock⟩ := relocks
          refine .inr ⟨?_, _, next, stopped, .inr lock⟩
          rintro ⟨⟨next, found⟩, -⟩
          rw [looked] at found
          cases found
      | none =>
          obtain ⟨mem, holds, -⟩ := resident.holds.lookupStr looked
          by_cases unlinked : self.Unlinked obj
          · have takes := (resident.holds.takes_iff holds mem).mpr unlinked.1
            obtain ⟨hash, inserted⟩ := holds.insertKeystr_of_takes cmp64 takes
            have placed := (holds.insertKeystr inserted).2.2
            exact .inl ⟨⟨⟨middle, looked⟩, unlinked⟩, newlyResident_of_missEnds resident
              (fresh_of_takes resident unlinked.1) (stays_underStr placed)
              (exec_insertKeystr_miss laws searches resident free looked inserted unlinked.2)⟩
          · have used : (dhashIndex64 cmp64).insertKeystr middle obj = none ∨
                self.lruPtr obj = true := by
              by_cases linked : self.lruPtr obj = true
              · exact .inr linked
              · refine .inl (Option.eq_none_iff_forall_ne_some.mpr ?_)
                intro hash inserted
                have takes := (resident.holds.takes_iff holds mem).mp
                  (holds.insertKeystr inserted).1
                exact unlinked ⟨takes, Bool.eq_false_iff.mpr linked⟩
            obtain ⟨next, stopped, lock⟩ :=
              exec_insertKeystr_aborts free (.inr ⟨middle, looked, used⟩)
            exact .inr ⟨fun safe => unlinked safe.2, _, next, stopped, .inl lock⟩

private theorem disciplined_insertKey64 (resident : self.Resident DHashObj.Resides)
    (free : self.mLock.held = false) :
    Disciplined self (exec (LruTable.insertKey64 (dhashIndex64 cmp64) (some obj)) self).2 ↔
      InsertSafe64 cmp64 self obj := by
  rcases insertKey64_ends resident free with
    ⟨hits, next, ran, paired, -, -⟩ | ⟨misses, unlinked, next, ran, paired, -, -⟩ |
      ⟨unsafe_, next, stopped, lock⟩
  · rw [ran]
    exact iff_of_true (paired.disciplined free) (.inl hits)
  · rw [ran]
    exact iff_of_true (paired.disciplined free) (.inr ⟨misses, unlinked⟩)
  · rw [stopped]
    exact iff_of_false (not_disciplined_of_locked lock) unsafe_

private theorem disciplined_insertKeystr (resident : self.Resident DHashObj.Resides)
    (free : self.mLock.held = false) :
    Disciplined self (exec (LruTable.insertKeystr (dhashIndex64 cmp64) (some obj)) self).2 ↔
      self.InsertSafeStr obj := by
  rcases insertKeystr_ends cmp64 resident free with
    ⟨safe, next, ran, paired, -, -⟩ | ⟨unsafe_, fault, next, stopped, lock | lock⟩
  · rw [ran]
    exact iff_of_true (paired.disciplined free) safe
  · rw [stopped]
    exact iff_of_false (not_disciplined_of_locked lock) unsafe_
  · rw [stopped]
    exact iff_of_false (not_disciplined_of_relocked lock) unsafe_

/-- The calls of an insertion, however it ends. -/
theorem calls_insertKey64 (resident : self.Resident DHashObj.Resides)
    (free : self.mLock.held = false) :
    ∃ made, (exec (LruTable.insertKey64 (dhashIndex64 cmp64) (some obj)) self).2.mLock.calls =
      self.mLock.calls ++ made := by
  rcases insertKey64_ends resident free with
    ⟨-, next, ran, paired, -, -⟩ | ⟨-, -, next, ran, paired, -, -⟩ | ⟨-, next, ran, lock⟩
  · exact ⟨[.lock, .unlock], by rw [ran, show next.mLock = _ from paired]; simp [locked, unlocked]⟩
  · exact ⟨[.lock, .unlock], by rw [ran, show next.mLock = _ from paired]; simp [locked, unlocked]⟩
  · exact ⟨[.lock], by rw [ran, lock]; rfl⟩

private theorem calls_insertKeystr (resident : self.Resident DHashObj.Resides)
    (free : self.mLock.held = false) :
    ∃ made, (exec (LruTable.insertKeystr (dhashIndex64 cmp64) (some obj)) self).2.mLock.calls =
      self.mLock.calls ++ made := by
  rcases insertKeystr_ends cmp64 resident free with
    ⟨-, next, ran, paired, -, -⟩ | ⟨-, fault, next, ran, lock | lock⟩
  · exact ⟨[.lock, .unlock], by rw [ran, show next.mLock = _ from paired]; simp [locked, unlocked]⟩
  · exact ⟨[.lock], by rw [ran, lock]; rfl⟩
  · exact ⟨[.lock, .lock], by rw [ran, lock]; simp [locked]⟩

end Insertions

/-! ## Lookups -/

section Lookups

variable {self : LruTable DHashObj} {find : DHashObj → Option (Option Obj × DHashObj)}
  {hash : DHashObj}

/-- The table after the search of a lookup. -/
def searched (self : LruTable DHashObj) (hash : DHashObj) : LruTable DHashObj :=
  { self.locked with mHash := hash }.unlocked

/-- A lookup that misses, before it inserts. -/
def missed (self : LruTable DHashObj) (hash : DHashObj) : LruTable DHashObj :=
  { self.searched hash with mMissCnt := self.mMissCnt + 1 }

theorem Resident.missed (resident : self.Resident DHashObj.Resides)
    (holds : hash.Resides self.mLru) : (self.missed hash).Resident DHashObj.Resides :=
  ⟨⟨holds, resident.linked⟩, resident.positive, resident.bounded⟩

theorem exec_search {α : Type} (free : self.mLock.held = false) {answer : Option Obj}
    (found : find self.mHash = some (answer, hash)) (rest : Option Obj → LruM DHashObj α) :
    exec (do
      pthreadMutexLock
      let obj ← hashLookup find
      pthreadMutexUnlock
      rest obj) self = exec (rest answer) (self.searched hash) := by
  have looked : exec (hashLookup find) self.locked =
      (.ok answer, { self.locked with mHash := hash }) :=
    exec_hashLookup found
  rw [exec_bind_of_ok _ (exec_lock free), exec_bind_of_ok _ looked, exec_bind_of_ok _ exec_unlock]
  rfl

theorem exec_search_none {α : Type} (free : self.mLock.held = false)
    (aborts : find self.mHash = none) (rest : Option Obj → LruM DHashObj α) :
    exec (do
      pthreadMutexLock
      let obj ← hashLookup find
      pthreadMutexUnlock
      rest obj) self = (.error .assertion, self.locked) := by
  have looked : exec (hashLookup find) self.locked = (.error .assertion, self.locked) :=
    exec_hashLookup_none aborts
  rw [exec_bind_of_ok _ (exec_lock free), exec_bind_of_error _ looked]

/-- The three lookups without a callback, over an insertion whose discipline is known. -/
theorem disciplined_lookupWith (free : self.mLock.held = false) {lost : Option Obj}
    {insert : Option Obj → LruM DHashObj Bool} {safe : LruTable DHashObj → Obj → Prop}
    (inserts : ∀ hash save, find self.mHash = some (none, hash) →
      (Disciplined (self.missed hash) (exec (insert (some save)) (self.missed hash)).2 ↔
        safe { self with mHash := hash } save) ∧
      ∃ made, (exec (insert (some save)) (self.missed hash)).2.mLock.calls =
        (self.missed hash).mLock.calls ++ made) :
    Disciplined self (exec (lookupWith find lost insert) self).2 ↔
      self.LookupSafe (find self.mHash) lost safe := by
  unfold lookupWith
  cases found : find self.mHash with
  | none =>
      rw [exec_search_none free found]
      refine iff_of_false (not_disciplined_of_locked rfl) ?_
      rintro ⟨answer, hash, none, -⟩
      cases none
  | some result =>
      obtain ⟨answer, hash⟩ := result
      rw [exec_search free found]
      cases answer with
      | some ref =>
          refine iff_of_true (Paired.disciplined rfl free) ⟨_, _, rfl, ?_⟩
          exact fun none => by cases none
      | none =>
          dsimp only
          rw [exec_bind_of_ok _ exec_countMiss]
          cases lost with
          | none =>
              refine iff_of_true (Paired.disciplined rfl free) ⟨_, _, rfl, ?_⟩
              exact fun _ save none => by cases none
          | some save =>
              obtain ⟨decides, made, calls⟩ := inserts hash save found
              have ends : (exec (do
                  let _ ← insert (some save)
                  return some save) (self.missed hash)).2 =
                    (exec (insert (some save)) (self.missed hash)).2 := by
                rw [exec_bind]
                rcases exec (insert (some save)) (self.missed hash) with ⟨result, next⟩
                cases result with
                | ok ret => rfl
                | error fault => rfl
              change Disciplined self (exec (do
                let _ ← insert (some save)
                return some save) (self.missed hash)).2 ↔ _
              rw [ends, disciplined_after free rfl rfl calls, decides]
              constructor
              · intro inserted
                refine ⟨_, _, rfl, ?_⟩
                intro _ other same
                cases same
                exact inserted
              · rintro ⟨answer, other, same, inserted⟩
                cases same
                exact inserted rfl save rfl

private theorem disciplined_lookupCbWith (free : self.mLock.held = false) :
    Disciplined self (exec (lookupCbWith find) self).2 ↔ (find self.mHash).isSome := by
  unfold lookupCbWith
  cases found : find self.mHash with
  | none =>
      rw [exec_search_none free found]
      exact iff_of_false (not_disciplined_of_locked rfl) Bool.false_ne_true
  | some result =>
      obtain ⟨answer, hash⟩ := result
      rw [exec_search free found]
      cases answer with
      | none => exact iff_of_true (Paired.disciplined rfl free) rfl
      | some ref => exact iff_of_true (Paired.disciplined rfl free) rfl

end Lookups

/-! ## Every operation -/

section Correctness

variable {cmp64 : Key64 → Key64 → Int} {user : LruUser} {self : LruTable DHashObj}

private theorem free_of_disciplined {α : Type} {rest : Unit → LruM DHashObj α}
    (disciplined : Disciplined self (exec (pthreadMutexLock >>= rest) self).2) :
    self.mLock.held = false :=
  Bool.eq_false_iff.mpr fun held => not_disciplined_of_held held rest disciplined

private theorem Paired.trivially {next : LruTable DHashObj} (paired : Paired self next)
    (free : self.mLock.held = false) : Disciplined self next ∧ True :=
  ⟨paired.disciplined free, trivial⟩

private theorem correct_insertKey64 (resident : self.Resident DHashObj.Resides)
    (free : self.mLock.held = false) (obj : Obj) :
    Correct cmp64 user self (.insertKey64 (some obj)) ↔
      Misses64 cmp64 self.mHash obj ∧ self.Unlinked obj := by
  rcases insertKey64_ends resident free with
    ⟨⟨ref, other, found⟩, next, ran, paired, -, kept⟩ | ⟨misses, unlinked, next, ran, paired, -, new⟩ |
      ⟨unsafe_, next, stopped, lock⟩
  · refine iff_of_false ?_ ?_
    · rintro ⟨-, ret, returned, news⟩
      rw [ran] at returned news
      obtain ⟨added, same, fresh, inside, -⟩ := news.mp (Except.ok.inj returned).symm
      cases same
      exact fresh (kept inside)
    · rintro ⟨⟨middle, missed⟩, -⟩
      rw [found] at missed
      cases missed
  · refine iff_of_true ⟨?_, true, ?_, ?_⟩ ⟨misses, unlinked⟩
    · exact (disciplined_insertKey64 resident free).mpr (.inr ⟨misses, unlinked⟩)
    · rw [ran]
    · rw [ran]
      exact iff_of_true rfl ⟨obj, rfl, new⟩
  · refine iff_of_false ?_ fun safe => unsafe_ (.inr safe)
    exact fun correct => unsafe_ ((disciplined_insertKey64 resident free).mp correct.1)

private theorem correct_insertKeystr (resident : self.Resident DHashObj.Resides)
    (free : self.mLock.held = false) (obj : Obj) :
    Correct cmp64 user self (.insertKeystr (some obj)) ↔
      MissesStr self.mHash obj ∧ self.Unlinked obj := by
  constructor
  · exact fun correct => (disciplined_insertKeystr resident free).mp correct.1
  · intro safe
    refine ⟨(disciplined_insertKeystr resident free).mpr safe, true, ?_⟩
    rcases insertKeystr_ends cmp64 resident free with
      ⟨-, next, ran, paired, -, new⟩ | ⟨unsafe_, -⟩
    · rw [ran]
      exact ⟨rfl, iff_of_true rfl ⟨obj, rfl, new⟩⟩
    · exact (unsafe_ safe).elim

private theorem correct_removeObj (free : self.mLock.held = false) (obj : Obj) :
    Correct cmp64 user self (.removeObj (some obj)) ↔
      self.lruPtr obj = true ∧ self.mHash.mem.mChain obj = true := by
  change Disciplined self (exec (LruTable.removeObj (dhashIndex64 cmp64) (some obj)) self).2 ∧
    True ↔ _
  by_cases linked : self.lruPtr obj = true ∧ self.mHash.mem.mChain obj = true
  · obtain ⟨hash, removes⟩ : ∃ hash, (dhashIndex64 cmp64).removeObj self.mHash obj = some hash :=
      ⟨_, if_pos linked.2⟩
    rw [exec_removeObj free linked.1 removes]
    exact iff_of_true (Paired.trivially rfl free) linked
  · have refused : self.lruPtr obj = false ∨
        (dhashIndex64 cmp64).removeObj self.mHash obj = none := by
      cases ptr : self.lruPtr obj with
      | false => exact .inl rfl
      | true => exact .inr (if_neg fun held => linked ⟨ptr, held⟩)
    obtain ⟨next, stopped, lock⟩ := exec_removeObj_aborts free refused
    rw [stopped]
    exact iff_of_false (fun correct => not_disciplined_of_locked lock correct.1) linked

private theorem correct_refObj (free : self.mLock.held = false) (obj : Option Obj) :
    Correct cmp64 user self (.refObj obj) ↔ ∃ ref, obj = some ref ∧ self.lruPtr ref = true := by
  change Disciplined self (exec (LruTable.refObj obj) self).2 ∧ True ↔ _
  cases obj with
  | none =>
      have stopped : exec (LruTable.refObj none) self = (.error .nullObj, self.locked) :=
        exec_bind_of_ok _ (exec_lock free)
      rw [stopped]
      refine iff_of_false (fun correct => not_disciplined_of_locked rfl correct.1) ?_
      rintro ⟨ref, none, -⟩
      cases none
  | some obj =>
      cases linked : self.lruPtr obj with
      | true =>
          rw [exec_refObj free linked]
          exact iff_of_true (Paired.trivially rfl free) ⟨obj, rfl, linked⟩
      | false =>
          have unlinked : exec (objRm obj) self.locked = (.error .assertion, self.locked) :=
            exec_objRm_free linked
          have stopped : exec (LruTable.refObj (some obj)) self =
              (.error .assertion, self.locked) :=
            (exec_bind_of_ok _ (exec_lock free)).trans (exec_bind_of_error _ unlinked)
          rw [stopped]
          refine iff_of_false (fun correct => not_disciplined_of_locked rfl correct.1) ?_
          rintro ⟨ref, same, other⟩
          cases same
          rw [linked] at other
          cases other

private theorem correct_clear (resident : self.Resident DHashObj.Resides)
    (free : self.mLock.held = false) : Correct cmp64 user self .clear := by
  obtain ⟨hash, cleared, -⟩ := exec_clear (dhashIndex64_laws cmp64) resident.toLinked free
  change Disciplined self (exec (LruTable.clear (dhashIndex64 cmp64)) self).2 ∧ True
  rw [cleared]
  exact Paired.trivially rfl free

private theorem disciplined_lookup64 (resident : self.Resident DHashObj.Resides)
    (free : self.mLock.held = false) (key : Key64) :
    Disciplined self (exec (LruTable.lookup64 (dhashIndex64 cmp64) user key) self).2 ↔
      self.LookupSafe (self.mHash.lookup64 cmp64 key) (user.lookupMissed64 key)
        (InsertSafe64 cmp64) := by
  refine disciplined_lookupWith free ?_
  intro hash save found
  have still := resident.missed (resident.holds.lookup64 found).2.1
  exact ⟨disciplined_insertKey64 still rfl, calls_insertKey64 still rfl⟩

private theorem disciplined_lookupStr (resident : self.Resident DHashObj.Resides)
    (free : self.mLock.held = false) (key : CStr) (lost : Option Obj) :
    Disciplined self (exec (lookupWith ((dhashIndex64 cmp64).lookupStr · key) lost
      (LruTable.insertKeystr (dhashIndex64 cmp64))) self).2 ↔
        self.LookupSafe (self.mHash.lookupStr key) lost InsertSafeStr := by
  refine disciplined_lookupWith free ?_
  intro hash save found
  have still := resident.missed (resident.holds.lookupStr found).2.1
  exact ⟨disciplined_insertKeystr still rfl, calls_insertKeystr still rfl⟩

/-- An operation that locks can only be correct in a thread that does not hold the mutex. -/
theorem iff_free_and {correct safe : Prop} (needs : correct → self.mLock.held = false)
    (decides : self.mLock.held = false → (correct ↔ safe)) :
    correct ↔ self.mLock.held = false ∧ safe := by
  constructor
  · exact fun holds => ⟨needs holds, (decides (needs holds)).mp holds⟩
  · exact fun holds => (decides holds.1).mpr holds.2

/-- An insertion of null does not lock, and returns `false`. -/
theorem returnsNew_null (under : DHashObj → Obj → Prop) :
    ReturnsNew under self none (.ok false, self) := by
  refine ⟨false, rfl, iff_of_false Bool.false_ne_true ?_⟩
  rintro ⟨new, none, -⟩
  cases none

/-- **The lock.** An operation keeps the lock discipline, and an insertion tells whether its
object is newly resident, exactly when `SafeWhen` holds. -/
theorem correct_iff_safeWhen (resident : self.Resident DHashObj.Resides) (op : LruOp) :
    Correct cmp64 user self op ↔ SafeWhen cmp64 user self op := by
  cases op with
  | insertKey64 obj =>
      cases obj with
      | none => exact iff_of_true ⟨disciplined_refl self, returnsNew_null _⟩ trivial
      | some obj =>
          exact iff_free_and (fun correct => free_of_disciplined correct.1)
            fun free => correct_insertKey64 resident free obj
  | insertKeystr obj =>
      cases obj with
      | none => exact iff_of_true ⟨disciplined_refl self, returnsNew_null _⟩ trivial
      | some obj =>
          exact iff_free_and (fun correct => free_of_disciplined correct.1)
            fun free => correct_insertKeystr resident free obj
  | removeObj obj =>
      cases obj with
      | none => exact iff_of_true ⟨disciplined_refl self, trivial⟩ trivial
      | some obj =>
          exact iff_free_and (fun correct => free_of_disciplined correct.1)
            fun free => correct_removeObj free obj
  | refObj obj =>
      exact iff_free_and (fun correct => free_of_disciplined correct.1)
        fun free => correct_refObj free obj
  | clear =>
      exact ⟨fun correct => free_of_disciplined correct.1, correct_clear resident⟩
  | lookup64 key =>
      exact (and_iff_left trivial).trans (iff_free_and free_of_disciplined
        fun free => disciplined_lookup64 resident free key)
  | lookupStr key =>
      exact (and_iff_left trivial).trans (iff_free_and free_of_disciplined
        fun free => disciplined_lookupStr resident free key _)
  | lookupString key =>
      exact (and_iff_left trivial).trans (iff_free_and free_of_disciplined
        fun free => disciplined_lookupStr resident free _ _)
  | lookupCb64 key =>
      exact (and_iff_left trivial).trans (iff_free_and free_of_disciplined
        fun free => disciplined_lookupCbWith free)
  | lookupCbStr key =>
      exact (and_iff_left trivial).trans (iff_free_and free_of_disciplined
        fun free => disciplined_lookupCbWith free)
  | lookupCbString key =>
      exact (and_iff_left trivial).trans (iff_free_and free_of_disciplined
        fun free => disciplined_lookupCbWith free)

end Correctness

/-! ## Runs -/

section Runs

variable (cmp64 : Key64 → Key64 → Int) (user : LruUser)

/-- Operations that do not return have no successor. -/
def machine : Machine (LruTable DHashObj) LruOp Unit where
  step self op :=
    if (invoke cmp64 user self op).1 then some ((invoke cmp64 user self op).2, ()) else none

/-- A new cache for at least one element, over any objects. -/
def Initial (self : LruTable DHashObj) : Prop :=
  ∃ maxElm mem lruPtr, 0 < maxElm ∧
    self = LruTable.init (maxElm : Nat) ⟨mem, dhashInit maxElm⟩ lruPtr

/-- Removals and references take residents. -/
def OnResidents (self : LruTable DHashObj) : LruOp → Prop
  | .removeObj (some obj) | .refObj (some obj) => obj ∈ self.mLru
  | _ => True

variable {cmp64 : Key64 → Key64 → Int} {user : LruUser} {self : LruTable DHashObj}

private theorem step_of_returns {op : LruOp} (returns : (invoke cmp64 user self op).1 = true) :
    (machine cmp64 user).step self op = some ((invoke cmp64 user self op).2, ()) := by
  simp only [machine, returns, if_true]

private theorem step_of_stops {op : LruOp} (stops : ¬ (invoke cmp64 user self op).1 = true) :
    (machine cmp64 user).step self op = none := by
  simp only [machine, stops]
  rfl

theorem resident_initial (initial : Initial self) : self.Resident DHashObj.Resides := by
  obtain ⟨maxElm, mem, lruPtr, positive, rfl⟩ := initial
  refine ⟨⟨DHashObj.resides_init mem positive, ?_⟩, ?_, ?_⟩
  · exact fun obj none => (List.not_mem_nil none).elim
  · exact Int.ofNat_le.mpr positive
  · exact Int.natCast_nonneg maxElm

theorem free_of_isOk {α : Type} {rest : Unit → LruM DHashObj α}
    (returns : (exec (pthreadMutexLock >>= rest) self).1.isOk) : self.mLock.held = false := by
  refine Bool.eq_false_iff.mpr fun held => ?_
  rw [exec_bind_of_error rest (exec_lock_held held)] at returns
  cases returns

private theorem resident_insertKey64 (resident : self.Resident DHashObj.Resides)
    (free : self.mLock.held = false) {obj : Obj}
    (returns : (exec (LruTable.insertKey64 (dhashIndex64 cmp64) (some obj)) self).1.isOk) :
    (exec (LruTable.insertKey64 (dhashIndex64 cmp64) (some obj)) self).2.Resident
      DHashObj.Resides := by
  rcases insertKey64_ends resident free with
    ⟨-, next, ran, -, still, -⟩ | ⟨-, -, next, ran, -, still, -⟩ | ⟨-, next, stopped, -⟩
  · rw [ran]
    exact still
  · rw [ran]
    exact still
  · rw [stopped] at returns
    cases returns

private theorem resident_insertKeystr (resident : self.Resident DHashObj.Resides)
    (free : self.mLock.held = false) {obj : Obj}
    (returns : (exec (LruTable.insertKeystr (dhashIndex64 cmp64) (some obj)) self).1.isOk) :
    (exec (LruTable.insertKeystr (dhashIndex64 cmp64) (some obj)) self).2.Resident
      DHashObj.Resides := by
  rcases insertKeystr_ends cmp64 resident free with
    ⟨-, next, ran, -, still, -⟩ | ⟨-, fault, next, stopped, -⟩
  · rw [ran]
    exact still
  · rw [stopped] at returns
    cases returns

theorem Resident.searched (resident : self.Resident DHashObj.Resides) {hash : DHashObj}
    (holds : hash.Resides self.mLru) : (self.searched hash).Resident DHashObj.Resides :=
  ⟨⟨holds, resident.linked⟩, resident.positive, resident.bounded⟩

private theorem resident_lookupWith (resident : self.Resident DHashObj.Resides)
    {find : DHashObj → Option (Option Obj × DHashObj)} {lost : Option Obj}
    {insert : Option Obj → LruM DHashObj Bool}
    (keeps : ∀ answer hash, find self.mHash = some (answer, hash) → hash.Resides self.mLru)
    (inserts : ∀ hash save, (self.missed hash).Resident DHashObj.Resides →
      (exec (insert (some save)) (self.missed hash)).1.isOk →
        (exec (insert (some save)) (self.missed hash)).2.Resident DHashObj.Resides)
    (returns : (exec (lookupWith find lost insert) self).1.isOk) :
    (exec (lookupWith find lost insert) self).2.Resident DHashObj.Resides := by
  have free := free_of_isOk returns
  unfold lookupWith at returns ⊢
  cases found : find self.mHash with
  | none =>
      rw [exec_search_none free found] at returns
      cases returns
  | some result =>
      obtain ⟨answer, hash⟩ := result
      have holds := keeps answer hash found
      rw [exec_search free found] at returns ⊢
      cases answer with
      | some ref =>
          have still := resident.searched holds
          exact ⟨⟨still.holds, still.linked⟩, still.positive, still.bounded⟩
      | none =>
          cases lost with
          | none => exact resident.missed holds
          | some save =>
              have still := resident.missed holds
              change (exec (do
                let _ ← insert (some save)
                return some save) (self.missed hash)).1.isOk at returns
              change (exec (do
                let _ ← insert (some save)
                return some save) (self.missed hash)).2.Resident DHashObj.Resides
              have ends := inserts hash save still
              obtain ⟨ret, next, ran, same⟩ := exec_bind_isOk returns
              rw [ran] at ends
              rw [same]
              exact ends rfl

private theorem resident_lookupCbWith (resident : self.Resident DHashObj.Resides)
    {find : DHashObj → Option (Option Obj × DHashObj)}
    (keeps : ∀ answer hash, find self.mHash = some (answer, hash) → hash.Resides self.mLru)
    (returns : (exec (lookupCbWith find) self).1.isOk) :
    (exec (lookupCbWith find) self).2.Resident DHashObj.Resides := by
  have free := free_of_isOk returns
  unfold lookupCbWith at returns ⊢
  cases found : find self.mHash with
  | none =>
      rw [exec_search_none free found] at returns
      cases returns
  | some result =>
      obtain ⟨answer, hash⟩ := result
      have still := resident.searched (keeps answer hash found)
      rw [exec_search free found]
      cases answer with
      | none => exact ⟨⟨still.holds, still.linked⟩, still.positive, still.bounded⟩
      | some ref => exact ⟨⟨still.holds, still.linked⟩, still.positive, still.bounded⟩

/-- An operation that returns leaves the hash and `m_lru` with the same objects. -/
theorem resident_invoke (resident : self.Resident DHashObj.Resides) {op : LruOp}
    (legal : self.OnResidents op) (returns : (invoke cmp64 user self op).1 = true) :
    (invoke cmp64 user self op).2.Resident DHashObj.Resides := by
  have laws := dhashIndex64_laws cmp64
  have by64 : ∀ key answer hash, self.mHash.lookup64 cmp64 key = some (answer, hash) →
      hash.Resides self.mLru := fun key answer hash found => (resident.holds.lookup64 found).2.1
  have byStr : ∀ key answer hash, self.mHash.lookupStr key = some (answer, hash) →
      hash.Resides self.mLru := fun key answer hash found => (resident.holds.lookupStr found).2.1
  cases op with
  | insertKey64 obj =>
      cases obj with
      | none => exact resident
      | some obj => exact resident_insertKey64 resident (free_of_isOk returns) returns
  | insertKeystr obj =>
      cases obj with
      | none => exact resident
      | some obj => exact resident_insertKeystr resident (free_of_isOk returns) returns
  | removeObj obj =>
      cases obj with
      | none => exact resident
      | some obj =>
          have free := free_of_isOk returns
          obtain ⟨hash, removes, holds⟩ := laws.removeObj resident.holds legal
          have ran := exec_removeObj free (resident.linked obj legal) removes
          change (exec (LruTable.removeObj (dhashIndex64 cmp64) (some obj)) self).2.Resident _
          rw [ran]
          exact (resident.locked.removed laws holds).unlocked
  | refObj obj =>
      have free := free_of_isOk returns
      cases obj with
      | none =>
          have stopped : exec (LruTable.refObj none) self = (.error .nullObj, self.locked) :=
            exec_bind_of_ok _ (exec_lock free)
          change (exec (LruTable.refObj none) self).1.isOk = true at returns
          rw [stopped] at returns
          cases returns
      | some obj =>
          change (exec (LruTable.refObj (some obj)) self).2.Resident _
          rw [exec_refObj free (resident.linked obj legal)]
          exact (resident.locked.touched laws legal).unlocked
  | clear =>
      obtain ⟨hash, cleared, holds⟩ := exec_clear laws resident.toLinked (free_of_isOk returns)
      change (exec (LruTable.clear (dhashIndex64 cmp64)) self).2.Resident _
      rw [cleared]
      exact (resident.locked.cleared holds).unlocked
  | lookup64 key =>
      exact resident_lookupWith resident (by64 key)
        (fun _ _ still => resident_insertKey64 still rfl) returns
  | lookupStr key =>
      exact resident_lookupWith resident (byStr key)
        (fun _ _ still => resident_insertKeystr still rfl) returns
  | lookupString key =>
      exact resident_lookupWith resident (byStr _)
        (fun _ _ still => resident_insertKeystr still rfl) returns
  | lookupCb64 key => exact resident_lookupCbWith resident (by64 key) returns
  | lookupCbStr key => exact resident_lookupCbWith resident (byStr key) returns
  | lookupCbString key => exact resident_lookupCbWith resident (byStr _) returns

/-- Every state of a run is a table with the same objects in the hash and `m_lru`. -/
theorem resident_of_reached (reached : (machine cmp64 user).Reached Initial OnResidents self) :
    self.Resident DHashObj.Resides := by
  have preserves : (machine cmp64 user).Preserves OnResidents
      fun self => self.Resident DHashObj.Resides := by
    intro before op next _ resident legal stepped
    by_cases returns : (invoke cmp64 user before op).1 = true
    · rw [step_of_returns returns, Option.some.injEq, Prod.mk.injEq] at stepped
      exact stepped.1 ▸ resident_invoke resident legal returns
    · rw [step_of_stops returns] at stepped
      cases stepped
  exact preserves.reached (fun _ => resident_initial) reached

end Runs

/-! ## Two objects with the same keys -/

section Twins

/-- A cache for one element, over objects that all have the same keys. -/
def twins : LruTable DHashObj :=
  LruTable.init 1 ⟨⟨fun _ => 7, fun _ => ⟨[97], by decide⟩, fun _ => false, fun _ => none⟩,
    dhashInit 1⟩ fun _ => false

def noUser : LruUser := ⟨fun _ => none, fun _ => none, fun _ => ⟨[], CStr.ended_nil⟩⟩

private theorem initial_twins : Initial twins := ⟨1, _, _, by decide, rfl⟩

/-- The first object is resident. -/
def firstTwin : LruTable DHashObj :=
  (invoke objCompare64 noUser twins (.insertKeystr (some 1))).2

private theorem onResidents_twins : twins.OnResidents (.insertKeystr (some 1)) := trivial

private theorem invoke_firstTwin :
    (invoke objCompare64 noUser twins (.insertKeystr (some 1))).1 = true := by decide +kernel

private theorem reached_firstTwin :
    (machine objCompare64 noUser).Reached Initial OnResidents firstTwin :=
  (Machine.reached_start initial_twins).step onResidents_twins (step_of_returns invoke_firstTwin)

/-- A resident object is removed. -/
theorem correct_iff_safeWhen_twins :
    Correct objCompare64 noUser firstTwin (.removeObj (some 1)) :=
  (correct_iff_safeWhen
    (resident_invoke (resident_initial initial_twins) onResidents_twins invoke_firstTwin)
    (.removeObj (some 1))).mpr (show _ ∧ _ ∧ _ by decide +kernel)

theorem resident_of_reached_twins :
    firstTwin.Resident DHashObj.Resides ∧ firstTwin.mLru = [1] :=
  ⟨resident_of_reached reached_firstTwin, by decide +kernel⟩

/-- Inserting the second object by its string key locks `m_lock` twice, and inserting it by its
64-bit key returns `true` although it is not made resident. -/
theorem secondTwin_not_correct :
    (machine objCompare64 noUser).Reached Initial OnResidents firstTwin ∧
      ¬ Correct objCompare64 noUser firstTwin (.insertKeystr (some 2)) ∧
      ¬ Correct objCompare64 noUser firstTwin (.insertKey64 (some 2)) := by
  refine ⟨reached_firstTwin, ?_, ?_⟩
  · rintro ⟨disciplined, -⟩
    have calls : (invoke objCompare64 noUser firstTwin (.insertKeystr (some 2))).2.mLock.calls =
        firstTwin.mLock.calls ++ [LockCall.lock, LockCall.lock] := by decide +kernel
    have alternate := (disciplined_iff calls).mp disciplined
    have free : firstTwin.mLock.held = false := by decide +kernel
    rw [free] at alternate
    cases alternate
  · rintro ⟨-, ret, returned, news⟩
    have hit : (exec (LruTable.insertKey64 (dhashIndex64 objCompare64) (some 2))
        firstTwin).1.toOption = some true := by decide +kernel
    have absent : 2 ∉ (exec (LruTable.insertKey64 (dhashIndex64 objCompare64) (some 2))
        firstTwin).2.mLru := by decide +kernel
    rw [returned] at hit
    obtain ⟨new, same, -, inside, -⟩ := news.mp (Option.some.inj hit)
    cases same
    exact absent inside

end Twins

end LruTable

end Tvntd
