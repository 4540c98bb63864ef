import Mathlib.Data.List.Basic
import Tvntd.Cpptype.DHashObj

/-! # `LruTable`

The cache of `cpptype/lru-cache.cpp`. Every resident object sits on two intrusive
structures: the hash, through `m_chain`, and the list `m_lru`, through a link of
its own whose pointer is set while it is linked.

The hash enters through the operations the cache calls (`HashIndex`). An
operation keeps its effects when it ends early, so that the calls it made on
`m_lock` can be read off the state it stopped in.
-/

namespace Tvntd

/-- The operations of `DHashObj` that an `LruTable` calls; `none` is the end of the program. -/
structure HashIndex (ι : Type) where
  objKey64 : ι → Obj → Key64
  objKeystr : ι → Obj → CStr
  lookup64 : ι → Key64 → Option (Option Obj × ι)
  lookupStr : ι → CStr → Option (Option Obj × ι)
  insertKey64 : ι → Obj → Option ι
  insertKeystr : ι → Obj → Option ι
  removeObj : ι → Obj → Option ι
  size : ι → Int

/-- `DHashObj` as the hash of a cache. -/
def dhashIndex64 (cmp64 : Key64 → Key64 → Int) : HashIndex DHashObj where
  objKey64 := fun dh => dh.mem.objKey64
  objKeystr := fun dh => dh.mem.objKeystr
  lookup64 := DHashObj.lookup64 cmp64
  lookupStr := DHashObj.lookupStr
  insertKey64 := fun dh obj => (dh.insertKey64 obj).map Prod.snd
  insertKeystr := fun dh obj => (dh.insertKeystr obj).map Prod.snd
  removeObj := DHashObj.removeObj
  size := fun dh => dh.mTab.dhElmCnt

inductive LockCall where
  | lock
  | unlock
  deriving DecidableEq

/-- A mutex as the calling thread sees it, with the calls the thread made. -/
structure Mutex where
  held : Bool
  calls : List LockCall

/-- Why an operation does not return. -/
inductive Fault where
  | assertion
  | deadlock
  | nullObj
  deriving DecidableEq

/-- The counters are statistics and wrap. `lruPtr` tells whether `m_lru.ol_ptr` of an object is
set. -/
structure LruTable (ι : Type) where
  mMaxElm : Int
  mHitCnt : BitVec 32
  mMissCnt : BitVec 32
  mKickCnt : BitVec 32
  mHash : ι
  mLru : List Obj
  lruPtr : Obj → Bool
  mLock : Mutex

abbrev LruM (ι : Type) := ExceptT Fault (StateM (LruTable ι))

/-- The functions a user of the cache overrides, and the bytes that a `std::string` object
shows when its address is read as a C string. -/
structure LruUser where
  lookupMissed64 : Key64 → Option Obj
  lookupMissedStr : List Byte → Option Obj
  stringBytes : List Byte → CStr

namespace LruTable

variable {ι : Type} {α : Type}

def exec (op : LruM ι α) (self : LruTable ι) : Except Fault α × LruTable ι :=
  StateT.run (ExceptT.run op) self

/-- A new cache over a new hash. -/
def init (maxElm : Int) (hash : ι) (lruPtr : Obj → Bool) : LruTable ι where
  mMaxElm := maxElm
  mHitCnt := 0
  mMissCnt := 0
  mKickCnt := 0
  mHash := hash
  mLru := []
  lruPtr := lruPtr
  mLock := ⟨false, []⟩

/-! ## Primitives -/

/-- `m_lock` is not recursive: its owner waits for itself. -/
def pthreadMutexLock : LruM ι Unit := do
  let self ← get
  set { self with mLock := ⟨true, self.mLock.calls ++ [LockCall.lock]⟩ }
  if self.mLock.held then throw .deadlock

def pthreadMutexUnlock : LruM ι Unit :=
  modify fun self => { self with mLock := ⟨false, self.mLock.calls ++ [LockCall.unlock]⟩ }

def countHit : LruM ι Unit := modify fun self => { self with mHitCnt := self.mHitCnt + 1 }

def countMiss : LruM ι Unit := modify fun self => { self with mMissCnt := self.mMissCnt + 1 }

def countKick : LruM ι Unit := modify fun self => { self with mKickCnt := self.mKickCnt + 1 }

def hashLookup (find : ι → Option (Option Obj × ι)) : LruM ι (Option Obj) := do
  let self ← get
  match find self.mHash with
  | some (found, hash) =>
      set { self with mHash := hash }
      return found
  | none => throw .assertion

def hashUpdate (update : ι → Option ι) : LruM ι Unit := do
  let self ← get
  match update self.mHash with
  | some hash => set { self with mHash := hash }
  | none => throw .assertion

/-- `obj->m_lru.obj_add_back(obj, &m_lru.m_list)` -/
def objAddBack (obj : Obj) : LruM ι Unit := do
  let self ← get
  if self.lruPtr obj then throw .assertion
  else
    set { self with
      mLru := self.mLru ++ [obj]
      lruPtr := Function.update self.lruPtr obj true }

/-- `obj->m_lru.obj_rm()` -/
def objRm (obj : Obj) : LruM ι Unit := do
  let self ← get
  if self.lruPtr obj then
    set { self with
      mLru := self.mLru.erase obj
      lruPtr := Function.update self.lruPtr obj false }
  else throw .assertion

/-- `m_lru.dl_rm_front()` -/
def dlRmFront : LruM ι (Option Obj) := do
  let self ← get
  match self.mLru with
  | [] => return none
  | old :: rest =>
      if self.lruPtr old then
        set { self with mLru := rest, lruPtr := Function.update self.lruPtr old false }
        return some old
      else throw .assertion

/-! ## Operations -/

section Operations

variable (ix : HashIndex ι)

/-- The loop that ends an insertion. Every turn unlinks one element of `m_lru` or stops, so its
length bounds the number of turns. -/
def kickLoop : Nat → LruM ι Unit
  | 0 => do
      if (← get).mMaxElm < ix.size (← get).mHash then throw .assertion
  | turns + 1 => do
      if (← get).mMaxElm < ix.size (← get).mHash then
        match ← dlRmFront with
        | none => throw .assertion
        | some old =>
            countKick
            hashUpdate (ix.removeObj · old)
            kickLoop turns

def kickOver : LruM ι Unit := do
  kickLoop ix (← get).mLru.length

def refObjNolock (obj : Obj) : LruM ι Unit := do
  objRm obj
  objAddBack obj

def refObj (obj : Option Obj) : LruM ι Unit := do
  pthreadMutexLock
  match obj with
  | none => throw .nullObj
  | some obj =>
      objRm obj
      objAddBack obj
      pthreadMutexUnlock

/-- What both insertions do with an object whose key is not in the hash. -/
def addMissed (insert : ι → Option ι) (obj : Obj) : LruM ι Unit := do
  countMiss
  hashUpdate insert
  objAddBack obj

def insertKey64 (obj : Option Obj) : LruM ι Bool :=
  match obj with
  | none => return false
  | some obj => do
      pthreadMutexLock
      let ref ← hashLookup fun hash => ix.lookup64 hash (ix.objKey64 hash obj)
      (match ref with
        | none => addMissed (ix.insertKey64 · obj) obj
        | some ref => do
            countHit
            refObjNolock ref)
      kickOver ix
      pthreadMutexUnlock
      return true

def insertKeystr (obj : Option Obj) : LruM ι Bool :=
  match obj with
  | none => return false
  | some obj => do
      pthreadMutexLock
      let ref ← hashLookup fun hash => ix.lookupStr hash (ix.objKeystr hash obj)
      let ret ← (match ref with
        | none => do
            addMissed (ix.insertKeystr · obj) obj
            return true
        | some ref => do
            countHit
            refObj (some ref)
            return false)
      kickOver ix
      pthreadMutexUnlock
      return ret

def removeObj (obj : Option Obj) : LruM ι Bool :=
  match obj with
  | none => return false
  | some obj => do
      pthreadMutexLock
      objRm obj
      hashUpdate (ix.removeObj · obj)
      pthreadMutexUnlock
      return true

/-- The loop of `clear`, bounded like `kickLoop`. -/
def clearLoop : Nat → LruM ι Unit
  | 0 => return ()
  | turns + 1 => do
      match ← dlRmFront with
      | none => return ()
      | some obj =>
          hashUpdate (ix.removeObj · obj)
          clearLoop turns

def clear : LruM ι Unit := do
  pthreadMutexLock
  clearLoop ix (← get).mLru.length
  if ix.size (← get).mHash ≠ 0 then throw .assertion
  pthreadMutexUnlock

/-- The body of the three lookups without a callback. -/
def lookupWith (find : ι → Option (Option Obj × ι)) (missed : Option Obj)
    (insert : Option Obj → LruM ι Bool) : LruM ι (Option Obj) := do
  pthreadMutexLock
  let obj ← hashLookup find
  pthreadMutexUnlock
  match obj with
  | some obj => do
      countHit
      return some obj
  | none => do
      countMiss
      match missed with
      | some save => do
          let _ ← insert (some save)
          return some save
      | none => return none

/-- The body of the three lookups with a callback: the object the callback gets, or `none` for
the call of `lookup_missed`. They count hits and misses the other way round. -/
def lookupCbWith (find : ι → Option (Option Obj × ι)) : LruM ι (Option Obj) := do
  pthreadMutexLock
  let obj ← hashLookup find
  pthreadMutexUnlock
  match obj with
  | none => do
      countHit
      return none
  | some obj => do
      countMiss
      return some obj

variable (user : LruUser)

def lookup64 (key : Key64) : LruM ι (Option Obj) :=
  lookupWith (ix.lookup64 · key) (user.lookupMissed64 key) (insertKey64 ix)

def lookupStr (key : CStr) : LruM ι (Option Obj) :=
  lookupWith (ix.lookupStr · key) (user.lookupMissedStr key.bytes) (insertKeystr ix)

/-- The address of the `std::string` is passed as a C string. -/
def lookupString (key : List Byte) : LruM ι (Option Obj) :=
  lookupWith (ix.lookupStr · (user.stringBytes key)) (user.lookupMissedStr key) (insertKeystr ix)

def lookupCb64 (key : Key64) : LruM ι (Option Obj) := lookupCbWith (ix.lookup64 · key)

def lookupCbStr (key : CStr) : LruM ι (Option Obj) := lookupCbWith (ix.lookupStr · key)

def lookupCbString (key : List Byte) : LruM ι (Option Obj) :=
  lookupCbWith (ix.lookupStr · (user.stringBytes key))

end Operations

/-! ## Running the primitives -/

variable {self next : LruTable ι}

theorem exec_bind (first : LruM ι α) {β : Type} (second : α → LruM ι β) :
    exec (first >>= second) self =
      match exec first self with
      | (.ok value, next) => exec (second value) next
      | (.error fault, next) => (.error fault, next) := by
  rw [exec, ExceptT.run_bind, StateT.run_bind]
  rcases ran : exec first self with ⟨result, next⟩
  rw [exec] at ran
  rw [ran]
  cases result with
  | ok value => rfl
  | error fault => rfl

theorem exec_bind_of_ok {first : LruM ι α} {value : α} {β : Type} (second : α → LruM ι β)
    (ran : exec first self = (.ok value, next)) :
    exec (first >>= second) self = exec (second value) next := by
  rw [exec_bind, ran]

theorem exec_bind_of_error {first : LruM ι α} {fault : Fault} {β : Type}
    (second : α → LruM ι β) (ran : exec first self = (.error fault, next)) :
    exec (first >>= second) self = (.error fault, next) := by
  rw [exec_bind, ran]

/-- What returns returned from its first part. -/
theorem exec_bind_isOk {first : LruM ι α} {β : Type} {second : α → LruM ι β}
    (returns : (exec (first >>= second) self).1.isOk) :
    ∃ value next, exec first self = (.ok value, next) ∧
      exec (first >>= second) self = exec (second value) next := by
  rcases ran : exec first self with ⟨result, next⟩
  cases result with
  | ok value => exact ⟨value, next, rfl, exec_bind_of_ok second ran⟩
  | error fault =>
      rw [exec_bind_of_error second ran] at returns
      cases returns

theorem exec_pure (value : α) : exec (pure value) self = (.ok value, self) := rfl

/-- The table while the calling thread holds `m_lock`. -/
def locked (self : LruTable ι) : LruTable ι :=
  { self with mLock := ⟨true, self.mLock.calls ++ [LockCall.lock]⟩ }

def unlocked (self : LruTable ι) : LruTable ι :=
  { self with mLock := ⟨false, self.mLock.calls ++ [LockCall.unlock]⟩ }

theorem exec_lock (free : self.mLock.held = false) :
    exec pthreadMutexLock self = (.ok (), self.locked) := by
  change exec (if self.mLock.held then throw .deadlock else pure ()) self.locked = _
  rw [free]
  rfl

theorem exec_lock_held (held : self.mLock.held = true) :
    exec pthreadMutexLock self = (.error .deadlock, self.locked) := by
  change exec (if self.mLock.held then throw .deadlock else pure ()) self.locked = _
  rw [held]
  rfl

theorem exec_unlock : exec pthreadMutexUnlock self = (.ok (), self.unlocked) := rfl

theorem exec_countHit :
    exec countHit self = (.ok (), { self with mHitCnt := self.mHitCnt + 1 }) := rfl

theorem exec_countMiss :
    exec countMiss self = (.ok (), { self with mMissCnt := self.mMissCnt + 1 }) := rfl

theorem exec_countKick :
    exec countKick self = (.ok (), { self with mKickCnt := self.mKickCnt + 1 }) := rfl

theorem exec_hashLookup {find : ι → Option (Option Obj × ι)} {found : Option Obj} {hash : ι}
    (finds : find self.mHash = some (found, hash)) :
    exec (hashLookup find) self = (.ok found, { self with mHash := hash }) := by
  change exec (match find self.mHash with
    | some (found, hash) => _
    | none => _) self = _
  rw [finds]
  rfl

theorem exec_hashLookup_none {find : ι → Option (Option Obj × ι)}
    (aborts : find self.mHash = none) :
    exec (hashLookup find) self = (.error .assertion, self) := by
  change exec (match find self.mHash with
    | some (found, hash) => _
    | none => _) self = _
  rw [aborts]
  rfl

theorem exec_hashUpdate {update : ι → Option ι} {hash : ι}
    (updates : update self.mHash = some hash) :
    exec (hashUpdate update) self = (.ok (), { self with mHash := hash }) := by
  change exec (match update self.mHash with
    | some hash => _
    | none => _) self = _
  rw [updates]
  rfl

theorem exec_hashUpdate_none {update : ι → Option ι} (aborts : update self.mHash = none) :
    exec (hashUpdate update) self = (.error .assertion, self) := by
  change exec (match update self.mHash with
    | some hash => _
    | none => _) self = _
  rw [aborts]
  rfl

theorem exec_objAddBack {obj : Obj} (free : self.lruPtr obj = false) :
    exec (objAddBack obj) self = (.ok (), { self with
      mLru := self.mLru ++ [obj]
      lruPtr := Function.update self.lruPtr obj true }) := by
  change exec (if self.lruPtr obj then _ else _) self = _
  rw [free]
  rfl

theorem exec_objAddBack_linked {obj : Obj} (linked : self.lruPtr obj = true) :
    exec (objAddBack obj) self = (.error .assertion, self) := by
  change exec (if self.lruPtr obj then _ else _) self = _
  rw [linked]
  rfl

theorem exec_objRm {obj : Obj} (linked : self.lruPtr obj = true) :
    exec (objRm obj) self = (.ok (), { self with
      mLru := self.mLru.erase obj
      lruPtr := Function.update self.lruPtr obj false }) := by
  change exec (if self.lruPtr obj then _ else _) self = _
  rw [linked]
  rfl

theorem exec_objRm_free {obj : Obj} (free : self.lruPtr obj = false) :
    exec (objRm obj) self = (.error .assertion, self) := by
  change exec (if self.lruPtr obj then _ else _) self = _
  rw [free]
  rfl

theorem exec_dlRmFront {old : Obj} {rest : List Obj} (front : self.mLru = old :: rest)
    (linked : self.lruPtr old = true) :
    exec dlRmFront self = (.ok (some old), { self with
      mLru := rest
      lruPtr := Function.update self.lruPtr old false }) := by
  change exec (match self.mLru with
    | [] => _
    | old :: rest => if self.lruPtr old then _ else _) self = _
  rw [front]
  simp only [linked, if_true]
  rfl

end LruTable

end Tvntd
