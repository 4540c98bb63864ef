import Mathlib.Data.List.Perm.Basic
import Tvntd.Cpptype.LruTable

/-! # The residents of an `LruTable`

What the operations of a cache do to its residents, over any hash that keeps
count of its objects (`HashIndex.Laws`). `Resident` says that the hash and
`m_lru` hold the same objects; the equations of this file give the state every
part of an operation ends in.
-/

namespace Tvntd

open Function

variable {ι : Type}

/-- The hash holds the objects of a list, in no order, and counts them. -/
structure HashIndex.Laws (ix : HashIndex ι) (Holds : ι → List Obj → Prop) : Prop where
  nodup : ∀ {hash all}, Holds hash all → all.Nodup
  perm : ∀ {hash all other}, Holds hash all → all.Perm other → Holds hash other
  size : ∀ {hash all}, Holds hash all → ix.size hash = all.length
  removeObj : ∀ {hash all obj}, Holds hash all → obj ∈ all →
    ∃ next, ix.removeObj hash obj = some next ∧ Holds next (all.erase obj)

/-- A search by one kind of key keeps the objects and finds one of them, and an insertion after
a search that missed adds its object. -/
structure HashIndex.Searches {κ : Type} (Holds : ι → List Obj → Prop) (key : ι → Obj → κ)
    (lookup : ι → κ → Option (Option Obj × ι)) (insert : ι → Obj → Option ι) : Prop where
  keeps : ∀ {hash all k found next}, Holds hash all → lookup hash k = some (found, next) →
    Holds next all ∧ ∀ obj, found = some obj → obj ∈ all
  adds : ∀ {hash all obj middle next}, Holds hash all →
    lookup hash (key hash obj) = some (none, middle) → insert middle obj = some next →
      Holds next (all ++ [obj])

abbrev HashIndex.Searches64 (ix : HashIndex ι) (Holds : ι → List Obj → Prop) : Prop :=
  HashIndex.Searches Holds ix.objKey64 ix.lookup64 ix.insertKey64

abbrev HashIndex.SearchesStr (ix : HashIndex ι) (Holds : ι → List Obj → Prop) : Prop :=
  HashIndex.Searches Holds ix.objKeystr ix.lookupStr ix.insertKeystr

namespace LruTable

/-- The hash and `m_lru` hold the same objects, each linked by its own `m_lru`. -/
structure Linked (Holds : ι → List Obj → Prop) (table : LruTable ι) : Prop where
  holds : Holds table.mHash table.mLru
  linked : ∀ obj ∈ table.mLru, table.lruPtr obj = true

/-- A state between two operations. -/
structure Resident (Holds : ι → List Obj → Prop) (table : LruTable ι) : Prop
    extends Linked Holds table where
  positive : 1 ≤ table.mMaxElm
  bounded : table.mLru.length ≤ table.mMaxElm

/-- The table after the first objects of `m_lru` were unlinked. -/
def dropped (self : LruTable ι) (count : Nat) (hash : ι) : LruTable ι :=
  { self with
    mHash := hash
    mLru := self.mLru.drop count
    lruPtr := fun obj => self.lruPtr obj && decide (obj ∉ self.mLru.take count) }

/-- The table after the loop of an insertion removed `count` objects. -/
def kicked (self : LruTable ι) (count : Nat) (hash : ι) : LruTable ι :=
  { self.dropped count hash with mKickCnt := self.mKickCnt + BitVec.ofNat 32 count }

/-- How many objects are over the capacity. -/
def surplus (self : LruTable ι) : Nat := self.mLru.length - self.mMaxElm.toNat

/-- The table after `obj` was moved to the back of `m_lru`. -/
def touched (self : LruTable ι) (obj : Obj) : LruTable ι :=
  { self with mLru := self.mLru.erase obj ++ [obj] }

/-- The table after `obj` was added on a miss. -/
def added (self : LruTable ι) (hash : ι) (obj : Obj) : LruTable ι :=
  { self with
    mMissCnt := self.mMissCnt + 1
    mHash := hash
    mLru := self.mLru ++ [obj]
    lruPtr := update self.lruPtr obj true }

variable {ix : HashIndex ι} {Holds : ι → List Obj → Prop} {self : LruTable ι} {α : Type}

private theorem dropped_zero (self : LruTable ι) : self.dropped 0 self.mHash = self := by
  unfold dropped
  simp

private theorem kicked_zero (self : LruTable ι) : self.kicked 0 self.mHash = self := by
  unfold kicked
  rw [dropped_zero]
  simp

private theorem dropped_succ {old : Obj} {rest : List Obj} (front : self.mLru = old :: rest)
    (count : Nat) (middle hash : ι) :
    dropped { self with
      mHash := middle
      mLru := rest
      lruPtr := update self.lruPtr old false } count hash =
        self.dropped (count + 1) hash := by
  unfold dropped
  simp only [front, List.drop_succ_cons, List.take_succ_cons, List.mem_cons, not_or]
  congr 1
  funext obj
  by_cases same : obj = old
  · simp [same]
  · simp [same]

/-- Unlinking the front of `m_lru` and removing it from the hash keeps the two together. -/
theorem Linked.front (laws : ix.Laws Holds) (linked : self.Linked Holds) {old : Obj}
    {rest : List Obj} (front : self.mLru = old :: rest) :
    ∃ hash, ix.removeObj self.mHash old = some hash ∧ Linked Holds { self with
      mHash := hash
      mLru := rest
      lruPtr := update self.lruPtr old false } := by
  have holds := linked.holds
  rw [front] at holds
  obtain ⟨hash, removed, still⟩ := laws.removeObj holds List.mem_cons_self
  rw [List.erase_cons_head] at still
  refine ⟨hash, removed, still, ?_⟩
  intro obj member
  have differs : obj ≠ old := fun same =>
    (List.nodup_cons.mp (laws.nodup holds)).1 (same ▸ member)
  exact (update_of_ne differs _ _).trans
    (linked.linked obj (front ▸ List.mem_cons_of_mem _ member))

/-! ## The loops -/

private theorem exec_kickLoop_stop (within : ix.size self.mHash ≤ self.mMaxElm) (turns : Nat) :
    exec (kickLoop ix turns) self = (.ok (), self) := by
  cases turns with
  | zero =>
      change exec (if self.mMaxElm < ix.size self.mHash then _ else pure ()) self = _
      rw [if_neg (Int.not_lt.mpr within)]
      rfl
  | succ turns =>
      change exec (if self.mMaxElm < ix.size self.mHash then _ else pure ()) self = _
      rw [if_neg (Int.not_lt.mpr within)]
      rfl

/-- One turn of the loop of an insertion. -/
theorem exec_kickLoop_turn {old : Obj} {rest : List Obj} {hash : ι}
    (exceeds : self.mMaxElm < ix.size self.mHash) (front : self.mLru = old :: rest)
    (linked : self.lruPtr old = true) (removed : ix.removeObj self.mHash old = some hash)
    (turns : Nat) :
    exec (kickLoop ix (turns + 1)) self = exec (kickLoop ix turns) { self with
      mKickCnt := self.mKickCnt + 1
      mHash := hash
      mLru := rest
      lruPtr := update self.lruPtr old false } := by
  change exec (if self.mMaxElm < ix.size self.mHash then _ else pure ()) self = _
  rw [if_pos exceeds, exec_bind_of_ok _ (exec_dlRmFront front linked)]
  dsimp only
  rw [exec_bind_of_ok _ exec_countKick, exec_bind_of_ok _ (exec_hashUpdate removed)]

/-- The loop removes from the front of `m_lru` what is over the capacity. -/
theorem exec_kickLoop (laws : ix.Laws Holds) {all : List Obj} :
    ∀ {self : LruTable ι}, self.Linked Holds → 0 ≤ self.mMaxElm → self.mLru = all →
      ∃ hash, (self.mLru.take self.surplus).foldlM ix.removeObj self.mHash = some hash ∧
        exec (kickLoop ix all.length) self = (.ok (), self.kicked self.surplus hash) ∧
        (self.kicked self.surplus hash).Linked Holds := by
  induction all with
  | nil =>
      intro self linked positive empty
      have sized := laws.size linked.holds
      have none : self.surplus = 0 := by simp [surplus, empty]
      have within : ix.size self.mHash ≤ self.mMaxElm := by
        rw [sized, empty]
        exact positive
      refine ⟨self.mHash, by rw [none]; rfl, ?_, ?_⟩
      · rw [none, kicked_zero]
        exact exec_kickLoop_stop within _
      · rw [none, kicked_zero]
        exact linked
  | cons old rest ih =>
      intro self linked positive front
      have sized := laws.size linked.holds
      by_cases exceeds : self.mMaxElm < ix.size self.mHash
      · obtain ⟨hash, removed, still⟩ := linked.front laws front
        have turned : Linked Holds { self with
            mKickCnt := self.mKickCnt + 1
            mHash := hash
            mLru := rest
            lruPtr := update self.lruPtr old false } := ⟨still.holds, still.linked⟩
        obtain ⟨final, folded, looped, ends⟩ := ih turned positive rfl
        have count : self.surplus = (rest.length - self.mMaxElm.toNat) + 1 := by
          rw [sized, front, List.length_cons] at exceeds
          rw [surplus, front, List.length_cons]
          omega
        have same : kicked { self with
            mKickCnt := self.mKickCnt + 1
            mHash := hash
            mLru := rest
            lruPtr := update self.lruPtr old false }
              (rest.length - self.mMaxElm.toNat) final = self.kicked self.surplus final := by
          have taken := dropped_succ front (rest.length - self.mMaxElm.toNat) hash final
          rw [count]
          unfold kicked
          rw [← taken]
          simp only [dropped, BitVec.ofNat_add]
          congr 1
          rw [BitVec.add_assoc, BitVec.add_comm 1]
          rfl
        refine ⟨final, ?_, ?_, ?_⟩
        · rw [count, front, List.take_succ_cons, List.foldlM_cons, removed]
          exact folded
        · rw [List.length_cons, exec_kickLoop_turn exceeds front
            (linked.linked old (front ▸ List.mem_cons_self)) removed, looped]
          exact congrArg _ same
        · exact same ▸ ends
      · have none : self.surplus = 0 := by
          rw [sized] at exceeds
          unfold surplus
          omega
        refine ⟨self.mHash, by rw [none]; rfl, ?_, ?_⟩
        · rw [none, kicked_zero]
          exact exec_kickLoop_stop (Int.not_lt.mp exceeds) _
        · rw [none, kicked_zero]
          exact linked

private theorem exec_kickOver (laws : ix.Laws Holds) (linked : self.Linked Holds)
    (positive : 0 ≤ self.mMaxElm) :
    ∃ hash, (self.mLru.take self.surplus).foldlM ix.removeObj self.mHash = some hash ∧
      exec (kickOver ix) self = (.ok (), self.kicked self.surplus hash) ∧
      (self.kicked self.surplus hash).Linked Holds :=
  exec_kickLoop laws linked positive rfl

/-! ## Parts of the operations -/

private theorem exec_refObjNolock {obj : Obj} (linked : self.lruPtr obj = true) :
    exec (refObjNolock obj) self = (.ok (), self.touched obj) := by
  unfold refObjNolock
  rw [exec_bind_of_ok _ (exec_objRm linked), exec_objAddBack (update_self _ _ _)]
  have same : update (update self.lruPtr obj false) obj true = self.lruPtr := by
    rw [update_idem, ← linked, update_eq_self]
  simp only [same]
  rfl

private theorem exec_addMissed {insert : ι → Option ι} {hash : ι} {obj : Obj}
    (inserted : insert self.mHash = some hash) (free : self.lruPtr obj = false) :
    exec (addMissed insert obj) self = (.ok (), self.added hash obj) := by
  have updated : exec (hashUpdate insert) { self with mMissCnt := self.mMissCnt + 1 } =
      (.ok (), { self with mMissCnt := self.mMissCnt + 1, mHash := hash }) :=
    exec_hashUpdate inserted
  have back : exec (objAddBack obj) { self with mMissCnt := self.mMissCnt + 1, mHash := hash } =
      (.ok (), self.added hash obj) := exec_objAddBack free
  unfold addMissed
  rw [exec_bind_of_ok _ exec_countMiss, exec_bind_of_ok _ updated, back]

/-- An object that is linked already, or that the hash does not take, ends the program. -/
theorem exec_addMissed_aborts {insert : ι → Option ι} {obj : Obj}
    (used : insert self.mHash = none ∨ self.lruPtr obj = true) :
    ∃ next, exec (addMissed insert obj) self = (.error .assertion, next) ∧
      next.mLock = self.mLock := by
  unfold addMissed
  rw [exec_bind_of_ok _ exec_countMiss]
  cases inserted : insert self.mHash with
  | none => exact ⟨_, exec_bind_of_error _ (exec_hashUpdate_none inserted), rfl⟩
  | some hash =>
      have linked : self.lruPtr obj = true := by
        rcases used with aborts | linked
        · rw [aborts] at inserted
          cases inserted
        · exact linked
      have updated : exec (hashUpdate insert) { self with mMissCnt := self.mMissCnt + 1 } =
          (.ok (), { self with mMissCnt := self.mMissCnt + 1, mHash := hash }) :=
        exec_hashUpdate inserted
      rw [exec_bind_of_ok _ updated]
      exact ⟨_, exec_objAddBack_linked linked, rfl⟩

private theorem exec_clearLoop (laws : ix.Laws Holds) {all : List Obj} :
    ∀ {self : LruTable ι}, self.Linked Holds → self.mLru = all →
      ∃ hash, exec (clearLoop ix all.length) self = (.ok (), self.dropped all.length hash) ∧
        (self.dropped all.length hash).Linked Holds := by
  induction all with
  | nil =>
      intro self linked _
      refine ⟨self.mHash, ?_, ?_⟩
      · rw [List.length_nil, dropped_zero]
        rfl
      · rw [List.length_nil, dropped_zero]
        exact linked
  | cons old rest ih =>
      intro self linked front
      obtain ⟨hash, removed, still⟩ := linked.front laws front
      obtain ⟨final, looped, ends⟩ := ih still rfl
      rw [dropped_succ front] at looped ends
      refine ⟨final, ?_, ends⟩
      rw [List.length_cons, clearLoop,
        exec_bind_of_ok _ (exec_dlRmFront front (linked.linked old (front ▸ List.mem_cons_self)))]
      dsimp only
      rw [exec_bind_of_ok _ (exec_hashUpdate removed)]
      exact looped

/-! ## Insertions

The first part of each insertion is its own; the loop and the unlock are shared. -/

/-- The table an insertion leaves after a hit. -/
def hit (self : LruTable ι) (hash : ι) (ref : Obj) : LruTable ι :=
  { self with mHash := hash, mHitCnt := self.mHitCnt + 1 }.touched ref

theorem Resident.added (resident : self.Resident Holds) {hash : ι} {obj : Obj}
    (holds : Holds hash (self.mLru ++ [obj])) : (self.added hash obj).Linked Holds where
  holds := holds
  linked := by
    intro other member
    by_cases same : other = obj
    · rw [same]
      exact update_self _ _ _
    · have before : other ∈ self.mLru := by
        rcases List.mem_append.mp member with inside | last
        · exact inside
        · exact (same (List.mem_singleton.mp last)).elim
      exact (update_of_ne same _ _).trans (resident.linked other before)

theorem perm_touched {ref : Obj} {all : List Obj} (member : ref ∈ all) :
    all.Perm (all.erase ref ++ [ref]) :=
  (List.perm_cons_erase member).trans (List.perm_append_singleton _ _).symm

theorem Resident.touched (laws : ix.Laws Holds) (resident : self.Resident Holds) {ref : Obj}
    (member : ref ∈ self.mLru) : (self.touched ref).Resident Holds where
  holds := laws.perm resident.holds (perm_touched member)
  linked := fun obj inside => resident.linked obj ((perm_touched member).mem_iff.mpr inside)
  positive := resident.positive
  bounded := by
    have same := (perm_touched member).length_eq
    have bounded := resident.bounded
    rw [same] at bounded
    exact bounded

/-- The state after the loop is within the capacity. -/
theorem Linked.kicked_resident (positive : 1 ≤ self.mMaxElm) {hash : ι}
    (linked : (self.kicked self.surplus hash).Linked Holds) :
    (self.kicked self.surplus hash).Resident Holds where
  toLinked := linked
  positive := positive
  bounded := by
    change ((self.mLru.drop self.surplus).length : Int) ≤ self.mMaxElm
    rw [List.length_drop, surplus]
    omega

private theorem Resident.surplus_eq_zero (resident : self.Resident Holds) : self.surplus = 0 := by
  have bounded := resident.bounded
  unfold surplus
  omega

private theorem exec_finish (laws : ix.Laws Holds) (linked : self.Linked Holds)
    (positive : 1 ≤ self.mMaxElm) (ret : Bool) :
    ∃ hash, (self.mLru.take self.surplus).foldlM ix.removeObj self.mHash = some hash ∧
      exec (do
        kickOver ix
        pthreadMutexUnlock
        return ret) self = (.ok ret, (self.kicked self.surplus hash).unlocked) ∧
      (self.kicked self.surplus hash).Resident Holds := by
  obtain ⟨hash, folded, looped, ends⟩ := exec_kickOver laws linked (by omega)
  refine ⟨hash, folded, ?_, ends.kicked_resident positive⟩
  rw [exec_bind_of_ok _ looped, exec_bind_of_ok _ exec_unlock, exec_pure]

/-- The loop of an insertion does nothing within the capacity. -/
theorem exec_finish_resident (laws : ix.Laws Holds) (resident : self.Resident Holds)
    (ret : Bool) :
    exec (do
      kickOver ix
      pthreadMutexUnlock
      return ret) self = (.ok ret, self.unlocked) := by
  obtain ⟨hash, folded, ran, -⟩ := exec_finish laws resident.toLinked resident.positive ret
  rw [resident.surplus_eq_zero, List.take_zero, List.foldlM_nil] at folded
  cases folded
  rw [ran, resident.surplus_eq_zero, kicked_zero]

theorem Resident.locked (resident : self.Resident Holds) : self.locked.Resident Holds :=
  ⟨⟨resident.holds, resident.linked⟩, resident.positive, resident.bounded⟩

theorem Resident.unlocked (resident : self.Resident Holds) : self.unlocked.Resident Holds :=
  ⟨⟨resident.holds, resident.linked⟩, resident.positive, resident.bounded⟩

theorem Resident.hit (laws : ix.Laws Holds) (resident : self.Resident Holds) {hash : ι}
    (holds : Holds hash self.mLru) {ref : Obj} (member : ref ∈ self.mLru) :
    (self.hit hash ref).Resident Holds := by
  have counted : Resident Holds { self with mHash := hash, mHitCnt := self.mHitCnt + 1 } :=
    ⟨⟨holds, resident.linked⟩, resident.positive, resident.bounded⟩
  exact counted.touched laws member

section Insertions

variable {obj ref : Obj} {middle hash : ι}

theorem exec_insertKey64_hit (laws : ix.Laws Holds) (searches : ix.Searches64 Holds)
    (resident : self.Resident Holds) (free : self.mLock.held = false)
    (found : ix.lookup64 self.mHash (ix.objKey64 self.mHash obj) = some (some ref, hash)) :
    exec (insertKey64 ix (some obj)) self = (.ok true, (self.locked.hit hash ref).unlocked) := by
  obtain ⟨holds, inside⟩ := searches.keeps resident.holds found
  have member := inside ref rfl
  have searched : exec (hashLookup fun hash => ix.lookup64 hash (ix.objKey64 hash obj))
      self.locked = (.ok (some ref), { self.locked with mHash := hash }) := exec_hashLookup found
  have linked : self.lruPtr ref = true := resident.linked ref member
  have moved : exec (do
      countHit
      refObjNolock ref) { self.locked with mHash := hash } =
        (.ok (), self.locked.hit hash ref) := by
    rw [exec_bind_of_ok _ exec_countHit]
    exact exec_refObjNolock linked
  have ends := resident.locked.hit laws holds member
  unfold insertKey64
  rw [exec_bind_of_ok _ (exec_lock free), exec_bind_of_ok _ searched]
  dsimp only
  rw [exec_bind_of_ok _ moved, exec_finish_resident laws ends]

/-- On a hit `insert_keystr` locks the mutex it holds. -/
theorem exec_insertKeystr_hit (free : self.mLock.held = false)
    (found : ix.lookupStr self.mHash (ix.objKeystr self.mHash obj) = some (some ref, hash)) :
    ∃ next, exec (insertKeystr ix (some obj)) self = (.error .deadlock, next) ∧
      next.mLock = self.locked.locked.mLock := by
  have searched : exec (hashLookup fun hash => ix.lookupStr hash (ix.objKeystr hash obj))
      self.locked = (.ok (some ref), { self.locked with mHash := hash }) := exec_hashLookup found
  unfold insertKeystr
  rw [exec_bind_of_ok _ (exec_lock free), exec_bind_of_ok _ searched]
  dsimp only
  refine ⟨locked { self.locked with mHash := hash, mHitCnt := self.mHitCnt + 1 },
    exec_bind_of_error _ ?_, rfl⟩
  rw [exec_bind_of_ok _ exec_countHit]
  apply exec_bind_of_error
  exact exec_bind_of_error _ (exec_lock_held rfl)

/-- An insertion that misses adds its object and removes what is then over the capacity. -/
def MissEnds (ix : HashIndex ι) (Holds : ι → List Obj → Prop) (self : LruTable ι) (hash : ι)
    (obj : Obj) (insert : LruM ι Bool) : Prop :=
  ∃ final, ((self.mLru ++ [obj]).take (self.added hash obj).surplus).foldlM ix.removeObj hash =
      some final ∧
    exec insert self =
      (.ok true, ((self.locked.added hash obj).kicked (self.added hash obj).surplus final).unlocked) ∧
    ((self.locked.added hash obj).kicked (self.added hash obj).surplus final).Resident Holds

theorem exec_insertKey64_miss (laws : ix.Laws Holds) (searches : ix.Searches64 Holds)
    (resident : self.Resident Holds) (free : self.mLock.held = false)
    (missed : ix.lookup64 self.mHash (ix.objKey64 self.mHash obj) = some (none, middle))
    (inserted : ix.insertKey64 middle obj = some hash) (unlinked : self.lruPtr obj = false) :
    MissEnds ix Holds self hash obj (insertKey64 ix (some obj)) := by
  have searched : exec (hashLookup fun hash => ix.lookup64 hash (ix.objKey64 hash obj))
      self.locked = (.ok none, { self.locked with mHash := middle }) := exec_hashLookup missed
  have added : exec (addMissed (ix.insertKey64 · obj) obj) { self.locked with mHash := middle } =
      (.ok (), self.locked.added hash obj) := exec_addMissed inserted unlinked
  have linked := resident.locked.added (searches.adds resident.holds missed inserted)
  obtain ⟨final, folded, finished, ends⟩ := exec_finish laws linked resident.positive true
  refine ⟨final, folded, ?_, ends⟩
  unfold insertKey64
  rw [exec_bind_of_ok _ (exec_lock free), exec_bind_of_ok _ searched]
  dsimp only
  rw [exec_bind_of_ok _ added, finished]
  rfl

theorem exec_insertKeystr_miss (laws : ix.Laws Holds) (searches : ix.SearchesStr Holds)
    (resident : self.Resident Holds) (free : self.mLock.held = false)
    (missed : ix.lookupStr self.mHash (ix.objKeystr self.mHash obj) = some (none, middle))
    (inserted : ix.insertKeystr middle obj = some hash) (unlinked : self.lruPtr obj = false) :
    MissEnds ix Holds self hash obj (insertKeystr ix (some obj)) := by
  have searched : exec (hashLookup fun hash => ix.lookupStr hash (ix.objKeystr hash obj))
      self.locked = (.ok none, { self.locked with mHash := middle }) := exec_hashLookup missed
  have added : exec (do
      addMissed (ix.insertKeystr · obj) obj
      return true) { self.locked with mHash := middle } =
        (.ok true, self.locked.added hash obj) := by
    have missing : exec (addMissed (ix.insertKeystr · obj) obj)
        { self.locked with mHash := middle } = (.ok (), self.locked.added hash obj) :=
      exec_addMissed inserted unlinked
    rw [exec_bind_of_ok _ missing, exec_pure]
  have linked := resident.locked.added (searches.adds resident.holds missed inserted)
  obtain ⟨final, folded, finished, ends⟩ := exec_finish laws linked resident.positive true
  refine ⟨final, folded, ?_, ends⟩
  unfold insertKeystr
  rw [exec_bind_of_ok _ (exec_lock free), exec_bind_of_ok _ searched]
  dsimp only
  rw [exec_bind_of_ok _ added, finished]
  rfl

/-- A failed assertion while the lock is held. -/
def Aborts (self : LruTable ι) (op : LruM ι α) : Prop :=
  ∃ next, exec op self = (.error .assertion, next) ∧ next.mLock = self.locked.mLock

theorem exec_insertKey64_aborts (free : self.mLock.held = false)
    (refused : ix.lookup64 self.mHash (ix.objKey64 self.mHash obj) = none ∨
      ∃ middle, ix.lookup64 self.mHash (ix.objKey64 self.mHash obj) = some (none, middle) ∧
        (ix.insertKey64 middle obj = none ∨ self.lruPtr obj = true)) :
    self.Aborts (insertKey64 ix (some obj)) := by
  unfold insertKey64 Aborts
  rw [exec_bind_of_ok _ (exec_lock free)]
  rcases refused with aborts | ⟨middle, missed, used⟩
  · have searched : exec (hashLookup fun hash => ix.lookup64 hash (ix.objKey64 hash obj))
        self.locked = (.error .assertion, self.locked) := exec_hashLookup_none aborts
    exact ⟨_, exec_bind_of_error _ searched, rfl⟩
  · have searched : exec (hashLookup fun hash => ix.lookup64 hash (ix.objKey64 hash obj))
        self.locked = (.ok none, { self.locked with mHash := middle }) := exec_hashLookup missed
    have ends : ∃ next, exec (addMissed (ix.insertKey64 · obj) obj)
        { self.locked with mHash := middle } = (.error .assertion, next) ∧
          next.mLock = self.locked.mLock := exec_addMissed_aborts used
    obtain ⟨next, stopped, lock⟩ := ends
    rw [exec_bind_of_ok _ searched]
    exact ⟨next, exec_bind_of_error _ stopped, lock⟩

theorem exec_insertKeystr_aborts (free : self.mLock.held = false)
    (refused : ix.lookupStr self.mHash (ix.objKeystr self.mHash obj) = none ∨
      ∃ middle, ix.lookupStr self.mHash (ix.objKeystr self.mHash obj) = some (none, middle) ∧
        (ix.insertKeystr middle obj = none ∨ self.lruPtr obj = true)) :
    self.Aborts (insertKeystr ix (some obj)) := by
  unfold insertKeystr Aborts
  rw [exec_bind_of_ok _ (exec_lock free)]
  rcases refused with aborts | ⟨middle, missed, used⟩
  · have searched : exec (hashLookup fun hash => ix.lookupStr hash (ix.objKeystr hash obj))
        self.locked = (.error .assertion, self.locked) := exec_hashLookup_none aborts
    exact ⟨_, exec_bind_of_error _ searched, rfl⟩
  · have searched : exec (hashLookup fun hash => ix.lookupStr hash (ix.objKeystr hash obj))
        self.locked = (.ok none, { self.locked with mHash := middle }) := exec_hashLookup missed
    have ends : ∃ next, exec (addMissed (ix.insertKeystr · obj) obj)
        { self.locked with mHash := middle } = (.error .assertion, next) ∧
          next.mLock = self.locked.mLock := exec_addMissed_aborts used
    obtain ⟨next, stopped, lock⟩ := ends
    rw [exec_bind_of_ok _ searched]
    exact ⟨next, exec_bind_of_error _ (exec_bind_of_error _ stopped), lock⟩

end Insertions

/-! ## The other operations -/

/-- The table after `remove_obj`. -/
def removed (self : LruTable ι) (hash : ι) (obj : Obj) : LruTable ι :=
  { self with
    mHash := hash
    mLru := self.mLru.erase obj
    lruPtr := update self.lruPtr obj false }

theorem exec_removeObj {obj : Obj} {hash : ι} (free : self.mLock.held = false)
    (linked : self.lruPtr obj = true) (removes : ix.removeObj self.mHash obj = some hash) :
    exec (removeObj ix (some obj)) self = (.ok true, (self.locked.removed hash obj).unlocked) := by
  have unlinked : exec (objRm obj) self.locked = (.ok (), { self.locked with
      mLru := self.mLru.erase obj
      lruPtr := update self.lruPtr obj false }) := exec_objRm linked
  have updated : exec (hashUpdate (ix.removeObj · obj)) { self.locked with
      mLru := self.mLru.erase obj
      lruPtr := update self.lruPtr obj false } =
        (.ok (), self.locked.removed hash obj) := exec_hashUpdate removes
  unfold removeObj
  rw [exec_bind_of_ok _ (exec_lock free), exec_bind_of_ok _ unlinked, exec_bind_of_ok _ updated,
    exec_bind_of_ok _ exec_unlock, exec_pure]

theorem Resident.removed (laws : ix.Laws Holds) (resident : self.Resident Holds) {obj : Obj}
    {hash : ι} (holds : Holds hash (self.mLru.erase obj)) :
    (self.removed hash obj).Resident Holds where
  holds := holds
  linked := by
    intro other kept
    obtain ⟨differs, inside⟩ := (laws.nodup resident.holds).mem_erase_iff.mp kept
    exact (update_of_ne differs _ _).trans (resident.linked other inside)
  positive := resident.positive
  bounded := by
    have shorter : (self.mLru.erase obj).length ≤ self.mLru.length := List.length_erase_le
    exact Int.le_trans (Int.ofNat_le.mpr shorter) resident.bounded

theorem exec_removeObj_aborts {obj : Obj} (free : self.mLock.held = false)
    (refused : self.lruPtr obj = false ∨ ix.removeObj self.mHash obj = none) :
    self.Aborts (removeObj ix (some obj)) := by
  unfold removeObj Aborts
  rw [exec_bind_of_ok _ (exec_lock free)]
  cases linked : self.lruPtr obj with
  | false =>
      have stopped : exec (objRm obj) self.locked = (.error .assertion, self.locked) :=
        exec_objRm_free linked
      exact ⟨_, exec_bind_of_error _ stopped, rfl⟩
  | true =>
      have aborts : ix.removeObj self.mHash obj = none := by
        rcases refused with free | aborts
        · rw [free] at linked
          cases linked
        · exact aborts
      have unlinked : exec (objRm obj) self.locked = (.ok (), { self.locked with
          mLru := self.mLru.erase obj
          lruPtr := update self.lruPtr obj false }) := exec_objRm linked
      have stopped : exec (hashUpdate (ix.removeObj · obj)) { self.locked with
          mLru := self.mLru.erase obj
          lruPtr := update self.lruPtr obj false } = (.error .assertion, _) :=
        exec_hashUpdate_none aborts
      rw [exec_bind_of_ok _ unlinked]
      exact ⟨_, exec_bind_of_error _ stopped, rfl⟩

theorem exec_refObj {obj : Obj} (free : self.mLock.held = false)
    (linked : self.lruPtr obj = true) :
    exec (refObj (some obj)) self = (.ok (), (self.locked.touched obj).unlocked) := by
  have moved : exec (refObjNolock obj) self.locked = (.ok (), self.locked.touched obj) :=
    exec_refObjNolock linked
  have split : (refObj (some obj) : LruM ι Unit) = (do
      pthreadMutexLock
      refObjNolock obj
      pthreadMutexUnlock) := by
    simp only [refObj, refObjNolock, bind_assoc]
  rw [split, exec_bind_of_ok _ (exec_lock free), exec_bind_of_ok _ moved, exec_unlock]

theorem Resident.cleared (resident : self.Resident Holds) {hash : ι} (holds : Holds hash []) :
    (self.dropped self.mLru.length hash).Resident Holds where
  holds := by
    rw [show (self.dropped self.mLru.length hash).mLru = [] from List.drop_length]
    exact holds
  linked := by
    intro obj member
    rw [show (self.dropped self.mLru.length hash).mLru = [] from List.drop_length] at member
    exact (List.not_mem_nil member).elim
  positive := resident.positive
  bounded := by
    rw [show (self.dropped self.mLru.length hash).mLru = [] from List.drop_length]
    exact Int.le_trans Int.one_nonneg resident.positive

theorem exec_clear (laws : ix.Laws Holds) (linked : self.Linked Holds)
    (free : self.mLock.held = false) :
    ∃ hash, exec (clear ix) self =
        (.ok (), (self.locked.dropped self.mLru.length hash).unlocked) ∧ Holds hash [] := by
  have locked : self.locked.Linked Holds := ⟨linked.holds, linked.linked⟩
  obtain ⟨hash, looped, ends⟩ := exec_clearLoop laws locked rfl
  have none : (self.locked.dropped self.locked.mLru.length hash).mLru = [] := List.drop_length
  have holds : Holds hash [] := none ▸ ends.holds
  have sized := laws.size holds
  refine ⟨hash, ?_, holds⟩
  unfold clear
  rw [exec_bind_of_ok _ (exec_lock free)]
  refine (exec_bind_of_ok _ looped).trans ?_
  change exec (if ix.size hash ≠ 0 then _ else pthreadMutexUnlock) _ = _
  rw [if_neg (by rw [sized]; simp)]
  exact exec_unlock

end LruTable

end Tvntd
