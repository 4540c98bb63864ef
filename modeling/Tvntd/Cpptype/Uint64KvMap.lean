import Tvntd.Lib.Machine
import Tvntd.Ctype.Shash
import Tvntd.Cpptype.Object

/-! # `Uint64KvMap`

The map hashes by the whole key and compares by the narrowed difference. Two
keys that share a bucket and the low 32 bits are taken for one another; apart
from them the map is a stack of entries under each key.
-/

namespace Tvntd

structure Uint64Kv where
  sKey : Key64
  sValue : Ptr
  sObj : Ptr
  deriving DecidableEq

namespace Uint64KvMap

abbrev Map := Shash Uint64Kv

def shFn : ShashFn Uint64Kv where
  shHashFn := fun size rec => objHash64 size rec.sKey
  shCmpFn := fun r1 r2 => objCompare64 r1.sKey r2.sKey

def alloc (key : Key64) (val : Ptr) : Uint64Kv := ⟨key, val, nullptr⟩

def allocObject (key : Key64) (val : Ptr) : Uint64Kv := { alloc key nullptr with sObj := val }

/-- The probe on the stack of a lookup: only its key is set. -/
def fnd (key : Key64) : Uint64Kv := ⟨key, nullptr, nullptr⟩

def insert (map : Map) (key : Key64) (value : Ptr) : Option (Nat × Map) :=
  shashInsert shFn map (alloc key value)

def insertObject (map : Map) (key : Key64) (value : Ptr) : Option (Nat × Map) :=
  shashInsert shFn map (allocObject key value)

/-- The object and the value a removal hands out. -/
def taken : Option Uint64Kv → Ptr × Ptr
  | some rec => (rec.sObj, rec.sValue)
  | none => (nullptr, nullptr)

def remove (map : Map) (key : Key64) : Option ((Ptr × Ptr) × Map) :=
  (shashRm shFn map (fnd key)).map fun lnk => (taken lnk.1, lnk.2)

def value (map : Map) (key : Key64) : Option Ptr :=
  (shashFind shFn map (fnd key)).map fun lnk => (taken lnk).2

def object (map : Map) (key : Key64) : Option Ptr :=
  (shashFind shFn map (fnd key)).map fun lnk => (taken lnk).1

/-- The calls of the map. -/
inductive Op where
  | insert (key : Key64) (value : Ptr)
  | insertObject (key : Key64) (value : Ptr)
  | remove (key : Key64)
  | value (key : Key64)
  | object (key : Key64)

/-- What an operation touches, beside the pointers it returns. -/
structure Answer where
  touched : Option Uint64Kv
  obj : Ptr
  val : Ptr
  deriving DecidableEq

def Answer.silent : Answer := ⟨none, nullptr, nullptr⟩

def step (map : Map) : Op → Option (Map × Answer)
  | .insert key val => (insert map key val).map fun result => (result.2, .silent)
  | .insertObject key val => (insertObject map key val).map fun result => (result.2, .silent)
  | .remove key =>
      (shashFind shFn map (fnd key)).bind fun lnk =>
        (remove map key).map fun result => (result.2, ⟨lnk, result.1.1, result.1.2⟩)
  | .value key =>
      (shashFind shFn map (fnd key)).bind fun lnk =>
        (value map key).map fun val => (map, ⟨lnk, nullptr, val⟩)
  | .object key =>
      (shashFind shFn map (fnd key)).bind fun lnk =>
        (object map key).map fun obj => (map, ⟨lnk, obj, nullptr⟩)

def machine : Machine Map Op Answer := ⟨step⟩

/-- The entry under exactly this key. -/
def under (key : Key64) (rec : Uint64Kv) : Bool := rec.sKey = key

/-- A stack of entries under each key, newest first. -/
def next (all : List Uint64Kv) : Op → List Uint64Kv × Answer
  | .insert key val => (alloc key val :: all, .silent)
  | .insertObject key val => (allocObject key val :: all, .silent)
  | .remove key =>
      let top := all.find? (under key)
      (all.eraseP (under key), ⟨top, (taken top).1, (taken top).2⟩)
  | .value key =>
      let top := all.find? (under key)
      (all, ⟨top, nullptr, (taken top).2⟩)
  | .object key =>
      let top := all.find? (under key)
      (all, ⟨top, (taken top).1, nullptr⟩)

/-- The first record in the bucket of a key that agrees with the key in the low 32 bits, if
there is one, is under that key. -/
def Unmistaken (map : Map) (key : Key64) : Prop :=
  ∀ rec, (map.shBucket (objHash64 map.shBkSize key)).find?
    (fun rec => rec.sKey.setWidth 32 = key.setWidth 32) = some rec → rec.sKey = key

/-- A key is used while no other key stands in for it, and an entry is inserted while the count
of the entries is an `int`. -/
def Careful (map : Map) : Op → Prop
  | .insert _ _ | .insertObject _ _ => map.shElmCnt + 1 < 2 ^ 31
  | .remove key | .value key | .object key => Unmistaken map key

variable {size : Nat} {map : Map} {all : List Uint64Kv}

theorem shHashFn_lt (positive : 0 < size) (rec : Uint64Kv) : shFn.shHashFn size rec < size :=
  objHash64_lt positive rec.sKey

theorem takes_eq (key : Key64) (rec : Uint64Kv) :
    shFn.takes size (fnd key) rec =
      (objHash64 size rec.sKey = objHash64 size key &&
        rec.sKey.setWidth 32 = key.setWidth 32) := by
  change (_ && decide (objCompare64 rec.sKey key = 0)) = _
  rw [decide_eq_decide.mpr (objCompare64_eq_zero _ _)]
  rfl

/-- The record a probe takes is the first of its bucket with the low half of the key. -/
theorem unmistaken_iff (stacked : Stacked shFn size map all) (key : Key64) :
    Unmistaken map key ↔
      ∀ rec, all.find? (shFn.takes size (fnd key)) = some rec → rec.sKey = key := by
  have same : (map.shBucket (objHash64 map.shBkSize key)).find?
      (fun rec => rec.sKey.setWidth 32 = key.setWidth 32) =
      all.find? (shFn.takes size (fnd key)) := by
    rw [stacked.sized, stacked.buckets, Chaining.find?_bucketOf]
    congr 1
    funext rec
    rw [takes_eq]
    rfl
  unfold Unmistaken
  rw [same]

/-- Where no key is mistaken, a probe takes the newest entry under its key. -/
theorem takes_of_unmistaken {key : Key64}
    (exact_ : ∀ rec, all.find? (shFn.takes size (fnd key)) = some rec → rec.sKey = key) :
    all.find? (shFn.takes size (fnd key)) = all.find? (under key) ∧
      all.eraseP (shFn.takes size (fnd key)) = all.eraseP (under key) := by
  have wider : ∀ rec, under key rec → shFn.takes size (fnd key) rec = true := by
    intro rec own
    have same : rec.sKey = key := of_decide_eq_true own
    rw [takes_eq, same]
    simp
  induction all with
  | nil => exact ⟨rfl, rfl⟩
  | cons rec rest ih =>
      by_cases takes : shFn.takes size (fnd key) rec = true
      · have own : under key rec := by
          apply decide_eq_true
          exact exact_ rec (List.find?_cons_of_pos takes)
        rw [List.find?_cons_of_pos takes, List.find?_cons_of_pos own,
          List.eraseP_cons_of_pos takes, List.eraseP_cons_of_pos own]
        exact ⟨rfl, rfl⟩
      · have other : ¬ under key rec := fun own => takes (wider rec own)
        rw [List.find?_cons_of_neg takes] at exact_
        rw [List.find?_cons_of_neg takes, List.find?_cons_of_neg other,
          List.eraseP_cons_of_neg takes, List.eraseP_cons_of_neg other]
        obtain ⟨found, left⟩ := ih exact_
        exact ⟨found, by rw [left]⟩

theorem simulates (positive : 0 < size) :
    machine.Simulates next Careful (fun _ _ => True) (Stacked shFn size) := by
  intro map all op stacked _ careful
  have inside : ∀ rec : Uint64Kv, shFn.shHashFn size rec < size := shHashFn_lt positive
  cases op with
  | insert key val =>
      obtain ⟨after, inserted, still⟩ := stacked.insert (inside (alloc key val)) careful
      exact ⟨after, by simp only [machine, step, insert, inserted]; rfl, still⟩
  | insertObject key val =>
      obtain ⟨after, inserted, still⟩ := stacked.insert (inside (allocObject key val)) careful
      exact ⟨after, by simp only [machine, step, insertObject, inserted]; rfl, still⟩
  | remove key =>
      have exact_ := takes_of_unmistaken ((unmistaken_iff stacked key).mp careful)
      have found := stacked.find (inside (fnd key))
      obtain ⟨after, removed, still⟩ := stacked.rm (inside (fnd key))
      rw [exact_.1] at found removed
      rw [exact_.2] at still
      exact ⟨after, by simp only [machine, step, remove, found, removed]; rfl, still⟩
  | value key =>
      have exact_ := takes_of_unmistaken ((unmistaken_iff stacked key).mp careful)
      have found := stacked.find (inside (fnd key))
      rw [exact_.1] at found
      exact ⟨map, by simp only [machine, step, value, found]; rfl, stacked⟩
  | object key =>
      have exact_ := takes_of_unmistaken ((unmistaken_iff stacked key).mp careful)
      have found := stacked.find (inside (fnd key))
      rw [exact_.1] at found
      exact ⟨map, by simp only [machine, step, object, found]; rfl, stacked⟩

/-- An answer of the stack was given by a probe that mistook no key. -/
theorem unmistaken_of_found (positive : 0 < size) (stacked : Stacked shFn size map all)
    {key : Key64} (found : shashFind shFn map (fnd key) = some (all.find? (under key))) :
    Unmistaken map key := by
  rw [unmistaken_iff stacked]
  rw [stacked.find (shHashFn_lt positive (fnd key)), Option.some.injEq] at found
  intro rec taken
  rw [found] at taken
  have own : under key rec = true := List.find?_some taken
  exact of_decide_eq_true own

private theorem careful_of_step (positive : 0 < size) {op : Op} {after : Map}
    (stacked : Stacked shFn size map all)
    (stepped : machine.step map op = some (after, (next all op).2)) : Careful map op := by
  have returns : ∀ key, shashFind shFn map (fnd key) =
      some (all.find? (shFn.takes size (fnd key))) :=
    fun key => stacked.find (shHashFn_lt positive (fnd key))
  cases op with
  | insert key val =>
      by_contra wide
      have refused := shashInsert_overflow shFn (alloc key val) (Int.not_lt.mp wide)
      simp [machine, step, insert, refused] at stepped
  | insertObject key val =>
      by_contra wide
      have refused := shashInsert_overflow shFn (allocObject key val) (Int.not_lt.mp wide)
      simp [machine, step, insertObject, refused] at stepped
  | remove key =>
      apply unmistaken_of_found positive stacked
      obtain ⟨removed, rm, -⟩ := stacked.rm (shHashFn_lt positive (fnd key))
      simp [machine, step, remove, next, returns key, rm] at stepped
      rw [returns key, stepped.2.1]
  | value key =>
      apply unmistaken_of_found positive stacked
      simp [machine, step, value, next, returns key] at stepped
      rw [returns key, stepped.2.1]
  | object key =>
      apply unmistaken_of_found positive stacked
      simp [machine, step, object, next, returns key] at stepped
      rw [returns key, stepped.2.1]

/-- The run of the operations on a new map touches and returns what the stack of entries under
each key does, and leaves the entries of the stack. -/
def IsStack (size : Nat) (ops : List Op) : Prop :=
  ∃ final, machine.run (shashInit size) ops = some (final, (Machine.specRun next [] ops).2) ∧
    Stacked shFn size final (Machine.specRun next [] ops).1

theorem isStack_iff_careful (positive : 0 < size) (ops : List Op) :
    IsStack size ops ↔ machine.Meets Careful (shashInit size) ops := by
  constructor
  · rintro ⟨final, ran, -⟩
    exact (simulates positive).meets_of_run
      (fun _ _ _ _ stacked _ stepped => careful_of_step positive stacked stepped)
      (stacked_init shFn size) (Machine.specMeets_of_forall (fun _ _ => trivial) ops) ran
  · exact (simulates positive).run (stacked_init shFn size)
      (Machine.specMeets_of_forall (fun _ _ => trivial) ops)

end Uint64KvMap

end Tvntd
