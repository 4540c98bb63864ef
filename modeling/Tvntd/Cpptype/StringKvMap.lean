import Tvntd.Lib.Machine
import Tvntd.Ctype.Shash
import Tvntd.Cpptype.Object

/-! # `StringKvMap`

A record points at its key: at the copy behind the record itself, or at the
buffer of the caller. The callers' buffers are part of the state, and a caller
rewrites one only while no entry borrows it.

The size of a record is computed as an `int`. A copied key of `2 ^ 31 - 33` bytes
or more makes it negative or too small, and the insertion does not return.
-/

namespace Tvntd

open Function

/-- Where `s_key` points. -/
inductive KeyRef where
  | keyspace (key : CStr)
  | caller (buffer : Nat)

structure StringKv where
  sKey : KeyRef
  sValue : Ptr
  sObj : Ptr

/-- The callers' buffers. -/
abbrev Buffers := Nat → CStr

def KeyRef.read (mem : Buffers) : KeyRef → CStr
  | .keyspace key => key
  | .caller buffer => mem buffer

namespace StringKvMap

abbrev Map := Shash StringKv

def shFn (mem : Buffers) : ShashFn StringKv where
  shHashFn := fun size rec => objHashStrfn size (rec.sKey.read mem).bytes
  shCmpFn := fun r1 r2 => strcmp (r1.sKey.read mem).bytes (r2.sKey.read mem).bytes

/-- `sizeof(string_kv_t)` -/
def sizeofRec : Nat := 32

/-- The `int size` of an insertion: a `size_t` sum narrowed to 32 bits. -/
def recSize (key : CStr) (cpy : Bool) : BitVec 32 :=
  if cpy then (BitVec.ofNat 64 (sizeofRec + key.bytes.length + 1)).setWidth 32
  else BitVec.ofNat 32 sizeofRec

/-- `alloc`. The size is widened to a `size_t` with its sign; `malloc` refuses the upper half of
that range and its result is not checked. A copy that does not fill the allocated block exactly
runs over it or fails the assertion. -/
def alloc (mem : Buffers) (size : BitVec 32) (key : Nat) (val : Ptr) : Option StringKv :=
  let bytes := (size.signExtend 64).toNat
  if 2 ^ 63 ≤ bytes then none
  else if sizeofRec < bytes then
    if (mem key).bytes.length + 1 + sizeofRec = bytes then
      some ⟨.keyspace (mem key), val, nullptr⟩
    else none
  else if bytes = sizeofRec then some ⟨.caller key, val, nullptr⟩
  else none

def allocObject (mem : Buffers) (size : BitVec 32) (key : Nat) (val : Ptr) : Option StringKv :=
  (alloc mem size key nullptr).map fun ret => { ret with sObj := val }

def insert (mem : Buffers) (map : Map) (key : Nat) (value : Ptr) (cpy : Bool) :
    Option (Nat × Map) :=
  (alloc mem (recSize (mem key) cpy) key value).bind fun rec => shashInsert (shFn mem) map rec

def insertObject (mem : Buffers) (map : Map) (key : Nat) (value : Ptr) (cpy : Bool) :
    Option (Nat × Map) :=
  (allocObject mem (recSize (mem key) cpy) key value).bind fun rec =>
    shashInsert (shFn mem) map rec

def fnd (key : Nat) : StringKv := ⟨.caller key, nullptr, nullptr⟩

/-- The object and the value a removal hands out. -/
def taken : Option StringKv → Ptr × Ptr
  | some rec => (rec.sObj, rec.sValue)
  | none => (nullptr, nullptr)

def remove (mem : Buffers) (map : Map) (key : Nat) : Option ((Ptr × Ptr) × Map) :=
  (shashRm (shFn mem) map (fnd key)).map fun lnk => (taken lnk.1, lnk.2)

def value (mem : Buffers) (map : Map) (key : Nat) : Option Ptr :=
  (shashFind (shFn mem) map (fnd key)).map fun lnk => (taken lnk).2

def object (mem : Buffers) (map : Map) (key : Nat) : Option Ptr :=
  (shashFind (shFn mem) map (fnd key)).map fun lnk => (taken lnk).1

structure State where
  mem : Buffers
  map : Map

/-- The operations on a map, each with the buffer of its key, and a caller's write. -/
inductive Op where
  | write (buffer : Nat) (key : CStr)
  | insert (key : Nat) (value : Ptr) (cpy : Bool)
  | insertObject (key : Nat) (value : Ptr) (cpy : Bool)
  | remove (key : Nat)
  | value (key : Nat)
  | object (key : Nat)

/-- The returned object and value. -/
abbrev Answer := Ptr × Ptr

def step (state : State) : Op → Option (State × Answer)
  | .write buffer key => some ({ state with mem := update state.mem buffer key },
      (nullptr, nullptr))
  | .insert key val cpy =>
      (insert state.mem state.map key val cpy).map fun result =>
        ({ state with map := result.2 }, (nullptr, nullptr))
  | .insertObject key val cpy =>
      (insertObject state.mem state.map key val cpy).map fun result =>
        ({ state with map := result.2 }, (nullptr, nullptr))
  | .remove key =>
      (remove state.mem state.map key).map fun result =>
        ({ state with map := result.2 }, result.1)
  | .value key => (value state.mem state.map key).map fun val => (state, (nullptr, val))
  | .object key => (object state.mem state.map key).map fun obj => (state, (obj, nullptr))

def machine : Machine State Op Answer := ⟨step⟩

/-! ## The map as a stack of entries under each key -/

/-- One entry: the bytes of its key, and the buffer it borrows them from, if any. -/
structure Entry where
  key : List Byte
  value : Ptr
  obj : Ptr
  borrows : Option Nat

/-- The callers' buffers and the entries, newest first. -/
structure Stack where
  mem : Buffers
  entries : List Entry

def under (key : List Byte) (entry : Entry) : Bool := entry.key = key

def top (entries : List Entry) (key : List Byte) : Ptr × Ptr :=
  match entries.find? (under key) with
  | some entry => (entry.obj, entry.value)
  | none => (nullptr, nullptr)

def next (stack : Stack) : Op → Stack × Answer
  | .write buffer key => ({ stack with mem := update stack.mem buffer key },
      (nullptr, nullptr))
  | .insert key val cpy =>
      ({ stack with
        entries := ⟨(stack.mem key).bytes, val, nullptr, if cpy then none else some key⟩ ::
          stack.entries }, (nullptr, nullptr))
  | .insertObject key val cpy =>
      ({ stack with
        entries := ⟨(stack.mem key).bytes, nullptr, val, if cpy then none else some key⟩ ::
          stack.entries }, (nullptr, nullptr))
  | .remove key =>
      ({ stack with entries := stack.entries.eraseP (under (stack.mem key).bytes) },
        top stack.entries (stack.mem key).bytes)
  | .value key => (stack, (nullptr, (top stack.entries (stack.mem key).bytes).2))
  | .object key => (stack, ((top stack.entries (stack.mem key).bytes).1, nullptr))

/-- A borrowed key is unchanged while its entry is stored. -/
def legal (stack : Stack) : Op → Prop
  | .write buffer _ => ∀ entry ∈ stack.entries, entry.borrows ≠ some buffer
  | _ => True

instance (stack : Stack) : ∀ op, Decidable (legal stack op)
  | .write buffer _ =>
      inferInstanceAs (Decidable (∀ entry ∈ stack.entries, entry.borrows ≠ some buffer))
  | .insert .. | .insertObject .. | .remove _ | .value _ | .object _ => isTrue trivial

/-- A key is copied only if its record size is an `int`, and an entry is inserted only while the
count of the entries is one. -/
def Fits (state : State) : Op → Prop
  | .insert key _ cpy | .insertObject key _ cpy =>
      (cpy = true → (state.mem key).bytes.length + 33 < 2 ^ 31) ∧
        state.map.shElmCnt + 1 < 2 ^ 31
  | _ => True

/-- What the bytes and the ownership of a key make of its record. -/
def entryOf (mem : Buffers) (rec : StringKv) : Entry where
  key := (rec.sKey.read mem).bytes
  value := rec.sValue
  obj := rec.sObj
  borrows :=
    match rec.sKey with
    | .keyspace _ => none
    | .caller buffer => some buffer

/-- The records of the table are the entries of the stack. -/
structure Represents (size : Nat) (state : State) (stack : Stack) : Prop where
  mem : state.mem = stack.mem
  records : ∃ all, Stacked (shFn state.mem) size state.map all ∧
    stack.entries = all.map (entryOf state.mem)

variable {size : Nat} {mem : Buffers} {map : Map} {all : List StringKv}

theorem shHashFn_lt (positive : 0 < size) (rec : StringKv) : (shFn mem).shHashFn size rec < size :=
  objHashStrfn_lt positive _

theorem takes_eq (key : Nat) (rec : StringKv) :
    (shFn mem).takes size (fnd key) rec = under (mem key).bytes (entryOf mem rec) := by
  have compared := strcmp_eq_zero (rec.sKey.read mem).ended (mem key).ended
  change (decide (objHashStrfn size (rec.sKey.read mem).bytes =
    objHashStrfn size (mem key).bytes) &&
      decide (strcmp (rec.sKey.read mem).bytes (mem key).bytes = 0)) =
    decide ((rec.sKey.read mem).bytes = (mem key).bytes)
  have equal : decide (strcmp (rec.sKey.read mem).bytes (mem key).bytes = 0) =
      decide ((rec.sKey.read mem).bytes = (mem key).bytes) := decide_eq_decide.mpr compared
  rw [equal]
  by_cases same : (rec.sKey.read mem).bytes = (mem key).bytes
  · simp [same]
  · simp [same]

/-- A probe takes the newest record whose key bytes are the probed ones. -/
theorem find_eq (positive : 0 < size) (stacked : Stacked (shFn mem) size map all) (key : Nat) :
    ∃ lnk, shashFind (shFn mem) map (fnd key) = some lnk ∧
      taken lnk = top (all.map (entryOf mem)) (mem key).bytes := by
  refine ⟨_, stacked.find (shHashFn_lt positive (fnd key)), ?_⟩
  have same : (shFn mem).takes size (fnd key) = under (mem key).bytes ∘ entryOf mem := by
    funext rec
    exact takes_eq key rec
  unfold top
  rw [same, List.find?_map]
  cases found : all.find? (under (mem key).bytes ∘ entryOf mem) with
  | none => rfl
  | some rec => rfl

theorem rm_eq (positive : 0 < size) (stacked : Stacked (shFn mem) size map all) (key : Nat) :
    ∃ lnk after left, shashRm (shFn mem) map (fnd key) = some (lnk, after) ∧
      taken lnk = top (all.map (entryOf mem)) (mem key).bytes ∧
      Stacked (shFn mem) size after left ∧
      (all.map (entryOf mem)).eraseP (under (mem key).bytes) = left.map (entryOf mem) := by
  obtain ⟨after, removed, still⟩ := stacked.rm (shHashFn_lt positive (fnd key))
  obtain ⟨lnk, found, hands⟩ := find_eq positive stacked key
  rw [stacked.find (shHashFn_lt positive (fnd key)), Option.some.injEq] at found
  have same : (shFn mem).takes size (fnd key) = under (mem key).bytes ∘ entryOf mem := by
    funext rec
    exact takes_eq key rec
  rw [found] at removed
  refine ⟨lnk, after, _, removed, hands, still, ?_⟩
  rw [same, List.eraseP_map]

/-- A record is allocated whole when the narrowed size is the true one. -/
theorem alloc_eq (mem : Buffers) (key : Nat) (val : Ptr) (cpy : Bool)
    (fits : cpy = true → (mem key).bytes.length + 33 < 2 ^ 31) :
    alloc mem (recSize (mem key) cpy) key val =
      some ⟨if cpy then .keyspace (mem key) else .caller key, val, nullptr⟩ := by
  cases cpy with
  | false =>
      have bytes : ((recSize (mem key) false).signExtend 64).toNat = sizeofRec := rfl
      unfold alloc
      simp only [bytes]
      rfl
  | true =>
      have room := fits rfl
      have whole : (recSize (mem key) true).toNat = (mem key).bytes.length + 33 := by
        simp only [recSize, sizeofRec, if_true, BitVec.toNat_setWidth, BitVec.toNat_ofNat]
        omega
      have bytes : ((recSize (mem key) true).signExtend 64).toNat =
          (mem key).bytes.length + 33 := by
        have sign : (recSize (mem key) true).msb = false := by
          rw [BitVec.msb_eq_decide, whole]
          simp only [decide_eq_false_iff_not]
          omega
        rw [BitVec.signExtend_eq_setWidth_of_msb_false sign, BitVec.toNat_setWidth, whole]
        omega
      unfold alloc
      simp only [bytes]
      rw [if_neg (by omega), if_pos (by unfold sizeofRec; omega),
        if_pos (by unfold sizeofRec; omega)]
      rfl

private theorem entryOf_alloc (mem : Buffers) (key : Nat) (val obj : Ptr) (cpy : Bool) :
    entryOf mem ⟨if cpy then .keyspace (mem key) else .caller key, val, obj⟩ =
      ⟨(mem key).bytes, val, obj, if cpy then none else some key⟩ := by
  cases cpy with
  | false => rfl
  | true => rfl

private theorem shashInsert_eq (positive : 0 < size) (stacked : Stacked (shFn mem) size map all)
    (rec : StringKv) (counts : map.shElmCnt + 1 < 2 ^ 31) :
    ∃ index after, shashInsert (shFn mem) map rec = some (index, after) ∧
      Stacked (shFn mem) size after (rec :: all) := by
  obtain ⟨after, inserted, still⟩ := stacked.insert (shHashFn_lt positive rec) counts
  exact ⟨_, after, inserted, still⟩

/-- An insertion puts one entry on the stack. -/
theorem insert_eq (positive : 0 < size) (stacked : Stacked (shFn mem) size map all) {key : Nat}
    (val : Ptr) {cpy : Bool} (fits : cpy = true → (mem key).bytes.length + 33 < 2 ^ 31)
    (counts : map.shElmCnt + 1 < 2 ^ 31) :
    ∃ index after rec, insert mem map key val cpy = some (index, after) ∧
      Stacked (shFn mem) size after (rec :: all) ∧
      entryOf mem rec = ⟨(mem key).bytes, val, nullptr, if cpy then none else some key⟩ := by
  have allocated := alloc_eq mem key val cpy fits
  obtain ⟨index, after, inserted, still⟩ := shashInsert_eq positive stacked
    ⟨if cpy then .keyspace (mem key) else .caller key, val, nullptr⟩ counts
  refine ⟨index, after, _, ?_, still, entryOf_alloc mem key val nullptr cpy⟩
  unfold insert
  rw [allocated, Option.bind_some, inserted]

private theorem insertObject_eq (positive : 0 < size) (stacked : Stacked (shFn mem) size map all)
    {key : Nat} (obj : Ptr) {cpy : Bool}
    (fits : cpy = true → (mem key).bytes.length + 33 < 2 ^ 31)
    (counts : map.shElmCnt + 1 < 2 ^ 31) :
    ∃ index after rec, insertObject mem map key obj cpy = some (index, after) ∧
      Stacked (shFn mem) size after (rec :: all) ∧
      entryOf mem rec = ⟨(mem key).bytes, nullptr, obj, if cpy then none else some key⟩ := by
  have allocated := alloc_eq mem key nullptr cpy fits
  obtain ⟨index, after, inserted, still⟩ := shashInsert_eq positive stacked
    ⟨if cpy then .keyspace (mem key) else .caller key, nullptr, obj⟩ counts
  refine ⟨index, after, _, ?_, still, entryOf_alloc mem key nullptr obj cpy⟩
  unfold insertObject allocObject
  rw [allocated, Option.map_some, Option.bind_some, inserted]

/-- A caller may rewrite a buffer that no entry borrows. -/
theorem Represents.write {state : State} {stack : Stack} (holds : Represents size state stack)
    {buffer : Nat} (key : CStr)
    (unborrowed : ∀ entry ∈ stack.entries, entry.borrows ≠ some buffer) :
    Represents size { state with mem := update state.mem buffer key }
      { stack with mem := update stack.mem buffer key } where
  mem := by rw [holds.mem]
  records := by
    obtain ⟨all, stacked, entries⟩ := holds.records
    have keeps : ∀ rec ∈ all,
        rec.sKey.read (update state.mem buffer key) = rec.sKey.read state.mem := by
      intro rec member
      cases points : rec.sKey with
      | keyspace own => rfl
      | caller other =>
          have stored : entryOf state.mem rec ∈ stack.entries := by
            rw [entries]
            exact List.mem_map_of_mem member
          have different : other ≠ buffer := by
            intro same
            apply unborrowed _ stored
            simp only [entryOf, points, same]
          exact update_of_ne different _ _
    refine ⟨all, ?_, ?_⟩
    · apply stacked.congr
      intro rec member
      change objHashStrfn size _ = objHashStrfn size _
      rw [keeps rec member]
    · rw [entries]
      apply List.map_congr_left
      intro rec member
      unfold entryOf
      rw [keeps rec member]

theorem simulates (positive : 0 < size) :
    machine.Simulates next Fits legal (Represents size) := by
  intro state stack op holds allowed fits
  obtain ⟨mem, map⟩ := state
  obtain ⟨buffers, stored⟩ := stack
  obtain ⟨same, all, stacked, entries⟩ := holds
  change mem = buffers at same
  change stored = all.map (entryOf mem) at entries
  subst same entries
  cases op with
  | write buffer key => exact ⟨_, rfl, Represents.write ⟨rfl, all, stacked, rfl⟩ key allowed⟩
  | insert key val cpy =>
      obtain ⟨index, after, rec, inserted, still, entry⟩ :=
        insert_eq positive stacked val fits.1 fits.2
      refine ⟨⟨mem, after⟩, ?_, rfl, rec :: all, still, ?_⟩
      · simp only [machine, step, inserted]
        rfl
      · rw [List.map_cons, entry]
        rfl
  | insertObject key val cpy =>
      obtain ⟨index, after, rec, inserted, still, entry⟩ :=
        insertObject_eq positive stacked val fits.1 fits.2
      refine ⟨⟨mem, after⟩, ?_, rfl, rec :: all, still, ?_⟩
      · simp only [machine, step, inserted]
        rfl
      · rw [List.map_cons, entry]
        rfl
  | remove key =>
      obtain ⟨lnk, after, left, removed, hands, still, entries⟩ := rm_eq positive stacked key
      refine ⟨⟨_, after⟩, ?_, rfl, left, still, entries⟩
      simp only [machine, step, remove, removed, hands, Option.map_some]
      rfl
  | value key =>
      obtain ⟨lnk, found, hands⟩ := find_eq positive stacked key
      refine ⟨_, ?_, rfl, all, stacked, rfl⟩
      simp only [machine, step, value, found, hands, Option.map_some]
      rfl
  | object key =>
      obtain ⟨lnk, found, hands⟩ := find_eq positive stacked key
      refine ⟨_, ?_, rfl, all, stacked, rfl⟩
      simp only [machine, step, object, found, hands, Option.map_some]
      rfl

/-- The run of the operations on a new map returns what the stack of entries under each key
does, and leaves the entries of the stack. -/
def IsStack (size : Nat) (mem : Buffers) (ops : List Op) : Prop :=
  ∃ final, machine.run ⟨mem, shashInit size⟩ ops =
      some (final, (Machine.specRun next ⟨mem, []⟩ ops).2) ∧
    Represents size final (Machine.specRun next ⟨mem, []⟩ ops).1

/-- The map is that stack in every run that copies no oversized key. -/
theorem isStack_of_fits (positive : 0 < size) (mem : Buffers) {ops : List Op}
    (allowed : Machine.SpecMeets next legal ⟨mem, []⟩ ops)
    (fits : machine.Meets Fits ⟨mem, shashInit size⟩ ops) : IsStack size mem ops :=
  (simulates positive).run ⟨rfl, [], stacked_init _ size, rfl⟩ allowed fits

/-- The key `"a"` in two buffers. -/
def letterKey : CStr := ⟨[97#8], by decide⟩

/-- A copied key outlives the buffer it came from. -/
theorem isStack_of_fits_copied :
    IsStack 16 (fun _ => letterKey)
      [.insert 0 7 true, .write 0 ⟨[98#8], by decide⟩, .value 1, .remove 1, .object 1] :=
  isStack_of_fits (by decide) _ (by decide)
    ⟨⟨fun _ => by decide, by decide⟩, fun _ _ _ => ⟨trivial, fun _ _ _ => ⟨trivial,
      fun _ _ _ => ⟨trivial, fun _ _ _ => ⟨trivial, fun _ _ _ => trivial⟩⟩⟩⟩⟩

/-- The shortest key whose record is too large for an `int`. -/
def oversizedKey : CStr where
  bytes := List.replicate (2 ^ 31 - 33) 97#8
  ended := by
    intro member
    have letter := List.eq_of_mem_replicate member
    exact absurd letter (by decide)

private theorem alloc_oversizedKey :
    alloc (fun _ => oversizedKey) (recSize oversizedKey true) 0 7 = none := by
  have length : oversizedKey.bytes.length = 2 ^ 31 - 33 := List.length_replicate
  have narrowed : recSize oversizedKey true = BitVec.ofNat 32 (2 ^ 31) := by
    unfold recSize sizeofRec
    rw [length]
    apply BitVec.eq_of_toNat_eq
    simp
  rw [narrowed]
  unfold alloc
  rw [if_pos (by decide)]

/-- Copying the oversized key does not return. -/
theorem oversizedKey_not_stack :
    Machine.SpecMeets next legal ⟨fun _ => oversizedKey, []⟩ [.insert 0 7 true, .value 0] ∧
      ¬ IsStack 16 (fun _ => oversizedKey) [.insert 0 7 true, .value 0] := by
  refine ⟨⟨trivial, trivial, trivial⟩, ?_⟩
  rintro ⟨final, ran, -⟩
  obtain ⟨_, _, _, stepped, -, -⟩ := Machine.run_cons_eq_some ran
  simp only [machine, step, insert, alloc_oversizedKey, Option.bind_none, Option.map_none,
    reduceCtorEq] at stepped

end StringKvMap

end Tvntd
