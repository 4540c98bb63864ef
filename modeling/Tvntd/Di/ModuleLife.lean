import Tvntd.Di.Module

/-! # A module from its construction to its destruction

The constructors of `common/di/module.cpp`, `mod_alloc_depmod` and `~Module`
around the calls of a module. The submodules that `Module(subs[])` is given are
the first that are registered.

A state records which submodules were unregistered so far.
-/

namespace Tvntd

open Function

namespace Module

/-- `Module()` -/
def new (mem : ObjMem) (mState : Obj → Bool) : Module where
  mem := mem
  mState := mState
  mIndex := fun _ => none
  mNameTab := none
  mDepIdx := none
  mDepCnt := 0
  mDepSiz := 0

/-- `Module(int)` -/
def ofSize (mem : ObjMem) (mState : Obj → Bool) (size : Nat) : Module :=
  { new mem mState with mNameTab := some (dhashInit size) }

/-- `mod_alloc_depmod`; the bound of its loop is inclusive. -/
def modAllocDepmod (self : Module) (max : Nat) : Option Module :=
  if self.mDepCnt = 0 ∧ self.mDepSiz = 0 ∧ self.mDepIdx.isNone then
    (intValue (max * 2)).bind fun siz =>
      ((List.range (siz.toNat + 1)).foldl (fun arr i => depSet arr i none)
        (some ⟨siz.toNat, fun _ => none⟩)).map fun arr =>
          { self with mDepSiz := siz.toNat, mDepIdx := some arr }
  else none

/-- One turn of the loop of `~Module`. -/
def unregisterSlot (self : Module) (i : Nat) : Option Module :=
  self.mDepIdx.bind fun arr =>
    (match arr.slots i with
      | none => if self.mNameTab.isNone then some self else none
      | some mod => self.modUnregister mod).bind fun self =>
        (depSet self.mDepIdx i none).map fun arr => { self with mDepIdx := some arr }

/-- The loop of `~Module` over `left` slots from the slot `i`. -/
def unregisterSlots : Nat → Nat → Module → Option Module
  | 0, _, self => some self
  | left + 1, i, self => (self.unregisterSlot i).bind (unregisterSlots left (i + 1))

/-- `~Module` -/
def destruct (self : Module) : Option Module :=
  match self.mDepIdx with
  | none => some self
  | some _ => unregisterSlots self.mDepCnt 0 self

/-! ## Lives -/

inductive Event where
  | call (op : Op)
  | allocDepmod (max : Nat)
  | destroy

/-- A module, the submodules that it has, and the submodules that were unregistered. -/
structure Life where
  tracked : Tracked
  dropped : List Obj
  destroyed : Bool

def Op.dropped : Op → List Obj
  | .unregister mod => [mod]
  | .register _ | .getId _ | .getName _ => []

def lifeStep (cmp64 : Key64 → Key64 → Int) (life : Life) : Event → Option (Life × Option Obj)
  | .call op => (step cmp64 life.tracked op).map fun result =>
      (⟨result.1, op.dropped ++ life.dropped, life.destroyed⟩, result.2)
  | .allocDepmod max => (life.tracked.self.modAllocDepmod max).map fun self =>
      (⟨⟨self, life.tracked.members⟩, life.dropped, life.destroyed⟩, none)
  | .destroy => (destruct life.tracked.self).map fun self =>
      (⟨⟨self, []⟩, life.dropped, true⟩, none)

def lifeMachine (cmp64 : Key64 → Key64 → Int) : Machine Life Event (Option Obj) := ⟨lifeStep cmp64⟩

/-- A module behind one of its constructors, `Module(subs[])` before it registers. The 64-bit key
of a module is its 32-bit id. -/
def Built (life : Life) : Prop :=
  life.tracked.members = [] ∧ life.dropped = [] ∧ life.destroyed = false ∧
    (∀ mod, ∃ id : BitVec 32, life.tracked.self.mem.objKey64 mod = id.setWidth 64) ∧
    ∃ mem mState, life.tracked.self = new mem mState ∨
      (∃ size, life.tracked.self = ofSize mem mState size) ∨
      ∃ depCnt, life.tracked.self = ofSubs mem mState depCnt

/-- Nothing is called on a destroyed module, and the calls are legal. -/
def LegalEvent (life : Life) (event : Event) : Prop :=
  life.destroyed = false ∧ ∀ op, event = .call op → Legal life.tracked op

/-- The registration is made on a module that was built with a submodule, the lookups on a module
whose name table has buckets, and the destruction while nothing was unregistered. -/
def Sustains (life : Life) : Event → Prop
  | .call (.register mod) => 0 < life.tracked.self.mDepSiz ∧ Keeps life.tracked (.register mod)
  | .call (.unregister _) => True
  | .call op => (∀ tab, life.tracked.self.mNameTab = some tab → 0 < tab.dhBkSize) ∧
      Keeps life.tracked op
  | .allocDepmod _ => False
  | .destroy => life.dropped = []

/-- `m_dep_idx[m->m_index] == m` for every submodule. -/
def Placed (state : Tracked) : Prop :=
  ∀ mod ∈ state.members, ∃ arr idx, state.self.mDepIdx = some arr ∧
    state.self.mIndex mod = some idx ∧ idx < arr.size ∧ arr.slots idx = some mod

/-- Nothing is left in the name table and in the slots. -/
def Emptied (self : Module) : Prop :=
  (∀ tab, self.mNameTab = some tab → tab.dhElmCnt = 0) ∧
    ∀ arr, self.mDepIdx = some arr → ∀ idx < self.mDepCnt, arr.slots idx = none

/-- A registered module is a submodule, a lookup finds, and a destroyed module is empty. -/
def Right (life next : Life) (answer : Option Obj) : Event → Prop
  | .call op =>
      Finds life.tracked answer op ∧ ∀ mod, op = .register mod → mod ∈ next.tracked.members
  | .allocDepmod _ => True
  | .destroy => Emptied next.tracked.self

/-! ## The allocation -/

private theorem depSet_some {depIdx : Option DepIdx} {idx : Nat} {mod : Option Obj} {after : DepIdx}
    (written : depSet depIdx idx mod = some after) :
    ∃ before, depIdx = some before ∧ idx < before.size ∧
      after = { before with slots := update before.slots idx mod } := by
  obtain ⟨before, held, stored⟩ := Option.bind_eq_some_iff.mp written
  by_cases inside : idx < before.size
  · rw [if_pos inside, Option.some.injEq] at stored
    exact ⟨before, held, inside, stored.symm⟩
  · rw [if_neg inside] at stored
    cases stored

private theorem foldl_depSet_size {size : Nat} : ∀ (indices : List Nat) (arr : Option DepIdx),
    (∀ before, arr = some before → before.size = size) →
    ∀ after, indices.foldl (fun arr i => depSet arr i none) arr = some after → after.size = size
  | [], _, own => own
  | i :: rest, arr, own => by
      refine foldl_depSet_size rest _ fun next written => ?_
      obtain ⟨before, held, -, rfl⟩ := depSet_some written
      exact own before held

/-- The last turn of the loop writes behind the allocation. -/
theorem modAllocDepmod_eq_none (self : Module) (max : Nat) : self.modAllocDepmod max = none := by
  unfold modAllocDepmod
  split
  · cases intValue ((max : Int) * 2) with
    | none => rfl
    | some siz =>
        rw [Option.bind_some, List.range_succ, List.foldl_append, Option.map_eq_none_iff]
        refine Option.eq_none_iff_forall_ne_some.mpr fun after written => ?_
        obtain ⟨before, held, inside, -⟩ := depSet_some written
        have size : before.size = siz.toNat := foldl_depSet_size _ _
          (fun arr same => by cases same; rfl) before held
        exact absurd size (Nat.ne_of_gt inside)
  · rfl

/-! ## What a registration and an unregistration leave -/

private theorem objKey64_insertKeystr {table : DHashObj} {obj : Obj} {after : Nat × DHashObj}
    (inserted : table.insertKeystr obj = some after) :
    after.2.mem.objKey64 = table.mem.objKey64 := by
  unfold DHashObj.insertKeystr at inserted
  split at inserted
  · cases inserted
  · obtain ⟨result, -, rfl⟩ := Option.map_eq_some_iff.mp inserted
    rfl

theorem objKey64_insertChain {table : DHashObj} {obj : Obj} {p : Nat} {after : Nat × DHashObj}
    (inserted : table.insertChain obj p = some after) :
    after.2.mem.objKey64 = table.mem.objKey64 := by
  unfold DHashObj.insertChain at inserted
  split at inserted
  · obtain ⟨result, -, rfl⟩ := Option.map_eq_some_iff.mp inserted
    rfl
  · cases inserted

private theorem objKey64_removeObj {table after : DHashObj} {obj : Obj}
    (removed : table.removeObj obj = some after) : after.mem.objKey64 = table.mem.objKey64 := by
  unfold DHashObj.removeObj at removed
  split at removed
  · cases removed
    rfl
  · cases removed

private theorem objKey64_removeChain {table after : DHashObj} {obj : Obj} {p : Nat}
    (removed : table.removeChain obj p = some after) :
    after.mem.objKey64 = table.mem.objKey64 := by
  unfold DHashObj.removeChain at removed
  split at removed
  · cases removed
    rfl
  · cases removed

private theorem depGrow_some {self next : Module} (grew : depGrow self = some next) :
    ∃ siz depIdx, next = { self with mDepSiz := siz, mDepIdx := depIdx } ∧
      ∀ arr, self.mDepIdx = some arr → ∃ grown, depIdx = some grown ∧
        ∀ i < self.mDepCnt, grown.slots i = arr.slots i := by
  unfold depGrow at grew
  split at grew
  · obtain ⟨siz, -, moved⟩ := Option.bind_eq_some_iff.mp grew
    obtain ⟨arr, held, rfl⟩ := Option.map_eq_some_iff.mp moved
    refine ⟨_, _, rfl, fun other same => ?_⟩
    rw [held, Option.some.injEq] at same
    subst same
    exact ⟨_, rfl, fun i below => if_pos below⟩
  · cases grew
    exact ⟨_, _, rfl, fun arr held => ⟨arr, held, fun _ _ => rfl⟩⟩

/-- A registration appends the module to the slots. -/
theorem modRegister_some {self next : Module} {mod : Obj} (unmarked : self.mState mod = false)
    (registered : self.modRegister mod = some next) :
    next.mem.objKey64 = self.mem.objKey64 ∧ next.mDepCnt = self.mDepCnt + 1 ∧
      next.mIndex = update self.mIndex mod (some self.mDepCnt) ∧
      ∀ arr, self.mDepIdx = some arr → ∃ after, next.mDepIdx = some after ∧
        after.slots self.mDepCnt = some mod ∧ ∀ i < self.mDepCnt, after.slots i = arr.slots i := by
  unfold modRegister at registered
  rw [unmarked, if_neg Bool.false_ne_true] at registered
  obtain ⟨tab, -, registered⟩ := Option.bind_eq_some_iff.mp registered
  obtain ⟨byName, named, registered⟩ := Option.bind_eq_some_iff.mp registered
  obtain ⟨byId, ided, registered⟩ := Option.bind_eq_some_iff.mp registered
  obtain ⟨grown, grew, registered⟩ := Option.bind_eq_some_iff.mp registered
  obtain ⟨arr, written, rfl⟩ := Option.map_eq_some_iff.mp registered
  obtain ⟨siz, depIdx, rfl, moved⟩ := depGrow_some grew
  obtain ⟨before, held, inside, rfl⟩ := depSet_some written
  refine ⟨?_, rfl, rfl, fun old same => ?_⟩
  · exact (objKey64_insertChain ided).trans (objKey64_insertKeystr named)
  · obtain ⟨kept, here, slots⟩ := moved old same
    have same : before = kept := Option.some.inj (held.symm.trans here)
    subst same
    refine ⟨_, rfl, update_self .., fun i below => ?_⟩
    exact (update_of_ne (Nat.ne_of_lt below) ..).trans (slots i below)

/-- An unregistration empties the slot of the module. -/
theorem modUnregister_some {self next : Module} {mod : Obj} {tab : Dhash Link} {idx : Nat}
    (table : self.mNameTab = some tab) (indexed : self.mIndex mod = some idx)
    (unregistered : self.modUnregister mod = some next) :
    next.mem.objKey64 = self.mem.objKey64 ∧ next.mDepCnt = self.mDepCnt ∧
      next.mIndex = self.mIndex ∧ next.mDepIdx = depSet self.mDepIdx idx none := by
  unfold modUnregister at unregistered
  rw [table] at unregistered
  obtain ⟨unnamed, dropped, unregistered⟩ := Option.bind_eq_some_iff.mp unregistered
  obtain ⟨unlinked, taken, unregistered⟩ := Option.bind_eq_some_iff.mp unregistered
  have keys : unlinked.mem.objKey64 = self.mem.objKey64 :=
    (objKey64_removeChain taken).trans (objKey64_removeObj dropped)
  simp only [indexed] at unregistered
  split at unregistered
  · obtain ⟨arr, written, rfl⟩ := Option.map_eq_some_iff.mp unregistered
    exact ⟨keys, rfl, rfl, written.symm⟩
  · cases unregistered

/-! ## The loop of the destruction -/

/-- The slots from `i` on hold the submodules, each at its index. -/
def FilledFrom (self : Module) (members : List Obj) (i : Nat) : Prop :=
  ∀ idx, i ≤ idx → idx < self.mDepCnt → ∃ arr, self.mDepIdx = some arr ∧
    ∃ mod ∈ members, self.mIndex mod = some idx ∧ arr.slots idx = some mod

/-- The turn at `i` of a module whose slots from `i` on are filled. -/
theorem unregisterSlot_of_filled {self : Module} {members : List Obj} {i : Nat}
    (holds : Holds self members) (inside : i < self.mDepCnt) (filled : FilledFrom self members i) :
    ∃ next mod, self.unregisterSlot i = some next ∧
      Holds next (members.filter (· ≠ mod)) ∧ FilledFrom next (members.filter (· ≠ mod)) (i + 1) ∧
      next.mDepCnt = self.mDepCnt ∧ ∀ arr, self.mDepIdx = some arr →
        next.mDepIdx = some { arr with slots := update arr.slots i none } := by
  obtain ⟨arr, held, mod, member, indexed, stands⟩ := filled i (Nat.le_refl i) inside
  obtain ⟨tab, all, table, -, -⟩ := holds.linked
  obtain ⟨next, unregistered, still⟩ := holds.unregister member
  obtain ⟨-, counted, indexes, slots⟩ := modUnregister_some table indexed unregistered
  obtain ⟨_, allocated, -⟩ := holds.indexed.allocated
  have room : i < arr.size := by
    have size : arr.size = self.mDepSiz := by
      rw [held, Option.some.injEq] at allocated
      rw [allocated]
    rw [size]
    exact Nat.lt_trans inside holds.indexed.room
  have emptied : depSet (some arr) i none =
      some { arr with slots := update arr.slots i none } := by
    unfold depSet
    rw [Option.bind_some, if_pos room]
  rw [held, emptied] at slots
  have again : depSet next.mDepIdx i none = next.mDepIdx := by
    rw [slots]
    unfold depSet
    rw [Option.bind_some, if_pos room, update_idem]
  refine ⟨next, mod, ?_, still, ?_, counted, fun other same => ?_⟩
  · unfold unregisterSlot
    rw [held, Option.bind_some, stands]
    change (self.modUnregister mod).bind _ = _
    rw [unregistered, Option.bind_some, again, slots]
    cases next
    cases slots
    rfl
  · intro idx beyond below
    rw [counted] at below
    obtain ⟨same, here, other, among, at_, there⟩ := filled idx (Nat.le_of_succ_le beyond) below
    rw [held, Option.some.injEq] at here
    subst here
    have apart : idx ≠ i := Nat.ne_of_gt beyond
    have differs : other ≠ mod := by
      rintro rfl
      rw [indexed, Option.some.injEq] at at_
      exact apart at_.symm
    refine ⟨_, slots, other, List.mem_filter.mpr ⟨among, decide_eq_true differs⟩, ?_, ?_⟩
    · rw [indexes]
      exact at_
    · exact (update_of_ne apart ..).trans there
  · rw [held, Option.some.injEq] at same
    subst same
    exact slots

/-- From filled slots on, the loop unregisters everything that is left. -/
theorem unregisterSlots_of_filled : ∀ (left i : Nat) {self : Module} {members : List Obj},
    i + left = self.mDepCnt → Holds self members → FilledFrom self members i →
    (∀ arr, self.mDepIdx = some arr → ∀ idx < i, arr.slots idx = none) →
      ∃ next, unregisterSlots left i self = some next ∧ Emptied next
  | 0, i, self, members, ends, holds, _, behind => by
      obtain ⟨tab, all, table, links, own⟩ := holds.linked
      obtain ⟨slots, allocated, placed⟩ := holds.indexed.allocated
      have nothing : all = [] := by
        refine List.eq_nil_iff_forall_not_mem.mpr fun l inside => ?_
        obtain ⟨mod, member, -⟩ := (own l).mp inside
        obtain ⟨idx, -, below, stands⟩ := placed mod member
        have empty : slots idx = none := behind _ allocated idx (by omega)
        rw [stands] at empty
        cases empty
      refine ⟨self, rfl, fun other same => ?_, fun arr held idx below => ?_⟩
      · rw [table, Option.some.injEq] at same
        subst same
        have count := links.count
        rw [nothing] at count
        exact count
      · exact behind arr held idx (by omega)
  | left + 1, i, self, members, ends, holds, filled, behind => by
      obtain ⟨next, mod, turned, still, later, counted, slots⟩ :=
        unregisterSlot_of_filled holds (by omega) filled
      have emptied : ∀ arr, next.mDepIdx = some arr → ∀ idx < i + 1, arr.slots idx = none := by
        intro arr held idx below
        obtain ⟨old, allocated, -⟩ := holds.indexed.allocated
        have now := slots _ allocated
        rw [held, Option.some.injEq] at now
        subst now
        by_cases same : idx = i
        · subst same
          exact update_self ..
        · exact (update_of_ne same ..).trans (behind _ allocated idx (by omega))
      obtain ⟨final, ran, empty⟩ :=
        unregisterSlots_of_filled left (i + 1) (by omega) still later emptied
      refine ⟨final, ?_, empty⟩
      change (self.unregisterSlot i).bind _ = _
      rw [turned]
      exact ran

/-! ## The invariant of a life -/

/-- A module that was built without submodules. -/
structure Bare (dep : Module) : Prop where
  count : dep.mDepCnt = 0
  size : dep.mDepSiz = 0
  table : ∀ tab, dep.mNameTab = some tab →
    tab.dhElmCnt = 0 ∧ (0 < tab.dhBkSize → DHashObj.Holds ⟨dep.mem, tab⟩ [])

structure Alive (life : Life) : Prop where
  existing : life.destroyed = false
  ids : ∀ mod, ∃ id : BitVec 32, life.tracked.self.mem.objKey64 mod = id.setWidth 64
  shape : (Bare life.tracked.self ∧ life.tracked.members = []) ∨
    (Holds life.tracked.self life.tracked.members ∧
      (life.dropped = [] → FilledFrom life.tracked.self life.tracked.members 0))

/-- Ids are 32 bits wide, so the narrowed comparison tells them apart. -/
theorem Alive.tells {life : Life} (alive : Alive life) (mod : Obj) (id : BitVec 32) :
    objCompare64 (life.tracked.self.mem.objKey64 mod) (id.setWidth 64) = 0 ↔
      life.tracked.self.mem.objKey64 mod = id.setWidth 64 := by
  obtain ⟨own, key⟩ := alive.ids mod
  have narrow : ∀ word : BitVec 32, (word.setWidth 64).setWidth 32 = word := fun word =>
    BitVec.setWidth_setWidth_of_le word (by decide)
  rw [objCompare64_eq_zero, key, narrow, narrow]
  constructor
  · exact congrArg _
  · intro same
    rw [← narrow own, same, narrow]

theorem Alive.placed {life : Life} (alive : Alive life) : Placed life.tracked := by
  intro mod member
  rcases alive.shape with ⟨-, none⟩ | ⟨holds, -⟩
  · rw [none] at member
    exact nomatch member
  · obtain ⟨slots, allocated, placed⟩ := holds.indexed.allocated
    obtain ⟨idx, indexed, below, stands⟩ := placed mod member
    exact ⟨_, idx, allocated, indexed, Nat.lt_trans below holds.indexed.room, stands⟩

private theorem alive_of_built {life : Life} (built : Built life) : Alive life := by
  obtain ⟨members, dropped, existing, ids, mem, mState, shapes⟩ := built
  refine ⟨existing, ids, ?_⟩
  rw [members]
  rcases shapes with new | ⟨size, sized⟩ | ⟨depCnt, subs⟩
  · rw [new]
    exact Or.inl ⟨⟨rfl, rfl, fun _ absent => nomatch absent⟩, rfl⟩
  · rw [sized]
    refine Or.inl ⟨⟨rfl, rfl, fun tab table => ?_⟩, rfl⟩
    cases table
    exact ⟨rfl, fun positive => DHashObj.holds_init mem positive⟩
  · rw [subs]
    rcases Nat.eq_zero_or_pos depCnt with rfl | positive
    · refine Or.inl ⟨⟨rfl, rfl, fun tab table => ?_⟩, rfl⟩
      cases table
      exact ⟨rfl, fun none => absurd none (by decide)⟩
    · refine Or.inr ⟨holds_ofSubs mem mState positive, fun _ idx _ below => ?_⟩
      exact absurd below (Nat.not_lt_zero idx)

variable {life : Life}

theorem Alive.register (alive : Alive life) {mod : Obj}
    (legal : Legal life.tracked (.register mod))
    (sustains : Sustains life (.call (.register mod))) :
    ∃ next answer, lifeStep objCompare64 life (.call (.register mod)) = some (next, answer) ∧
      mod ∈ next.tracked.members ∧ Alive next := by
  obtain ⟨room, keeps⟩ := sustains
  rcases alive.shape with ⟨bare, -⟩ | ⟨holds, filled⟩
  · exact absurd bare.size (Nat.ne_of_gt room)
  · cases marked : life.tracked.self.mState mod with
    | true =>
        have member := keeps.1 marked
        refine ⟨life, none, ?_, member, alive⟩
        simp only [lifeStep, step, modRegister, marked, if_true, Option.map_some, if_pos member]
        rfl
    | false =>
        have fresh : mod ∉ life.tracked.members := by
          intro member
          rw [holds.indexed.marked mod member] at marked
          cases marked
        obtain ⟨free, apart⟩ := legal marked
        obtain ⟨next, registered, still⟩ := holds.register marked free apart keeps.2
        obtain ⟨keys, counted, indexes, slots⟩ := modRegister_some marked registered
        refine ⟨⟨⟨next, mod :: life.tracked.members⟩, life.dropped, life.destroyed⟩, none, ?_,
          List.mem_cons_self, alive.existing, ?_, Or.inr ⟨still, fun nothing => ?_⟩⟩
        · simp only [lifeStep, step, registered, Option.map_some, if_neg fresh]
          rfl
        · intro other
          change ∃ id : BitVec 32, next.mem.objKey64 other = _
          rw [keys]
          exact alive.ids other
        · intro idx _ below
          change idx < next.mDepCnt at below
          rw [counted] at below
          change ∃ arr, next.mDepIdx = some arr ∧ ∃ other ∈ mod :: life.tracked.members,
            next.mIndex other = some idx ∧ arr.slots idx = some other
          rw [indexes]
          rcases Nat.lt_succ_iff_lt_or_eq.mp below with before | last
          · obtain ⟨arr, held, other, among, at_, there⟩ :=
              filled nothing idx (Nat.zero_le _) before
            obtain ⟨after, now, -, kept⟩ := slots arr held
            have differs : other ≠ mod := fun same => fresh (same ▸ among)
            exact ⟨after, now, other, List.mem_cons_of_mem _ among,
              (update_of_ne differs ..).trans at_, (kept idx before).trans there⟩
          · subst last
            obtain ⟨arr, allocated, -⟩ := holds.indexed.allocated
            obtain ⟨after, now, added, -⟩ := slots _ allocated
            exact ⟨after, now, mod, List.mem_cons_self, update_self .., added⟩

theorem Alive.unregister (alive : Alive life) {mod : Obj}
    (legal : Legal life.tracked (.unregister mod)) :
    ∃ next answer, lifeStep objCompare64 life (.call (.unregister mod)) = some (next, answer) ∧
      Alive next := by
  rcases alive.shape with ⟨-, none⟩ | ⟨holds, -⟩
  · have member : mod ∈ life.tracked.members := legal
    rw [none] at member
    exact nomatch member
  · obtain ⟨next, unregistered, still⟩ := holds.unregister legal
    obtain ⟨tab, all, table, -⟩ := holds.linked
    obtain ⟨slots, -, placed⟩ := holds.indexed.allocated
    obtain ⟨idx, indexed, -⟩ := placed mod legal
    obtain ⟨keys, -⟩ := modUnregister_some table indexed unregistered
    refine ⟨⟨⟨next, life.tracked.members.filter (· ≠ mod)⟩, mod :: life.dropped, life.destroyed⟩,
      none, ?_, alive.existing, fun other => ?_, Or.inr ⟨still, fun nothing => nomatch nothing⟩⟩
    · simp only [lifeStep, step, unregistered, Option.map_some]
      rfl
    change ∃ id : BitVec 32, next.mem.objKey64 other = _
    rw [keys]
    exact alive.ids other

/-- A lookup, by what it does with a name table that holds the links of the submodules. -/
theorem Alive.lookup (alive : Alive life) {op : Op} (quiet : op.dropped = [])
    (buckets : ∀ tab, life.tracked.self.mNameTab = some tab → 0 < tab.dhBkSize)
    (finds : ∀ tab all, life.tracked.self.mNameTab = some tab →
      DHashObj.Holds ⟨life.tracked.self.mem, tab⟩ all → LinksOf life.tracked.members all →
        ∃ answer next, step objCompare64 life.tracked op =
            some (⟨{ life.tracked.self with mNameTab := some next }, life.tracked.members⟩, answer) ∧
          DHashObj.Holds ⟨life.tracked.self.mem, next⟩ all ∧ Finds life.tracked answer op)
    (absent : life.tracked.self.mNameTab = none → life.tracked.members = [] →
      step objCompare64 life.tracked op = some (life.tracked, none) ∧ Finds life.tracked none op) :
    ∃ next answer, lifeStep objCompare64 life (.call op) = some (next, answer) ∧
      Finds life.tracked answer op ∧ Alive next := by
  have lift : ∀ {after : Tracked × Option Obj}, step objCompare64 life.tracked op = some after →
      lifeStep objCompare64 life (.call op) =
        some (⟨after.1, life.dropped, life.destroyed⟩, after.2) := by
    intro after stepped
    simp only [lifeStep, stepped, Option.map_some, quiet, List.nil_append]
  rcases alive.shape with ⟨bare, none⟩ | ⟨holds, filled⟩
  · cases table : life.tracked.self.mNameTab with
    | none =>
        obtain ⟨stepped, found⟩ := absent table none
        exact ⟨_, _, lift stepped, found, alive.existing, alive.ids, Or.inl ⟨bare, none⟩⟩
    | some tab =>
        have own : LinksOf life.tracked.members [] := by
          rw [none]
          refine fun l => ⟨fun inside => (nomatch inside), ?_⟩
          rintro ⟨mod, member, -⟩
          exact nomatch member
        obtain ⟨answer, next, stepped, still, found⟩ :=
          finds tab [] table ((bare.table tab table).2 (buckets tab table)) own
        refine ⟨_, _, lift stepped, found, alive.existing, alive.ids,
          Or.inl ⟨⟨bare.count, bare.size, fun other same => ?_⟩, none⟩⟩
        cases same
        exact ⟨still.count, fun _ => still⟩
  · obtain ⟨tab, all, table, links, own⟩ := holds.linked
    obtain ⟨answer, next, stepped, still, found⟩ := finds tab all table links own
    exact ⟨_, _, lift stepped, found, alive.existing, alive.ids,
      Or.inr ⟨holds.mNameTab still own, filled⟩⟩

theorem Alive.getId (alive : Alive life) {id : BitVec 32}
    (sustains : Sustains life (.call (.getId id))) :
    ∃ next answer, lifeStep objCompare64 life (.call (.getId id)) = some (next, answer) ∧
      Finds life.tracked answer (.getId id) ∧ Alive next := by
  refine alive.lookup rfl sustains.1 (fun tab all table links own => ?_) fun absent none => ?_
  · obtain ⟨answer, next, got, still, found⟩ :=
      getId_finds (fun mod _ => alive.tells mod id) table links own sustains.2
    exact ⟨answer, next, by simp only [step, got, Option.map_some], still, found⟩
  · refine ⟨by simp only [step, modGetId, absent, Option.map_some], ?_, ?_⟩
    · exact fun mod answered => absurd answered (by simp)
    · rw [none]
      exact fun mod member => absurd member List.not_mem_nil

theorem Alive.getName (alive : Alive life) {name : CStr}
    (sustains : Sustains life (.call (.getName name))) :
    ∃ next answer, lifeStep objCompare64 life (.call (.getName name)) = some (next, answer) ∧
      Finds life.tracked answer (.getName name) ∧ Alive next := by
  refine alive.lookup rfl sustains.1 (fun tab all table links own => ?_) fun absent none => ?_
  · obtain ⟨answer, next, got, still, found⟩ := getName_finds table links own sustains.2
    exact ⟨answer, next, by simp only [step, got, Option.map_some], still, found⟩
  · refine ⟨by simp only [step, modGetName, absent, Option.map_some], ?_, ?_⟩
    · exact fun mod answered => absurd answered (by simp)
    · rw [none]
      exact fun mod member => absurd member List.not_mem_nil

theorem Alive.destroy (alive : Alive life) (kept : life.dropped = []) :
    ∃ next answer, lifeStep objCompare64 life .destroy = some (next, answer) ∧
      Emptied next.tracked.self ∧ next.destroyed = true ∧ next.tracked.members = [] := by
  obtain ⟨self, destroyed, empty⟩ :
      ∃ self, destruct life.tracked.self = some self ∧ Emptied self := by
    unfold destruct
    rcases alive.shape with ⟨bare, none⟩ | ⟨holds, filled⟩
    · have empty : Emptied life.tracked.self := by
        refine ⟨fun tab table => (bare.table tab table).1, fun arr _ idx below => ?_⟩
        rw [bare.count] at below
        exact absurd below (Nat.not_lt_zero idx)
      cases life.tracked.self.mDepIdx with
      | none => exact ⟨_, rfl, empty⟩
      | some arr =>
          rw [bare.count]
          exact ⟨_, rfl, empty⟩
    · obtain ⟨slots, allocated, -⟩ := holds.indexed.allocated
      rw [allocated]
      exact unregisterSlots_of_filled _ 0 (Nat.zero_add _) holds (filled kept)
        fun _ _ idx below => absurd below (Nat.not_lt_zero idx)
  exact ⟨⟨⟨self, []⟩, life.dropped, true⟩, none, by simp only [lifeStep, destroyed, Option.map_some],
    empty, rfl, rfl⟩

/-- A legal event that the life sustains. -/
theorem Alive.step (alive : Alive life) {event : Event} (legal : LegalEvent life event)
    (sustains : Sustains life event) :
    ∃ next answer, lifeStep objCompare64 life event = some (next, answer) ∧
      Right life next answer event ∧
        (Alive next ∨ (next.destroyed = true ∧ next.tracked.members = [])) := by
  cases event with
  | allocDepmod max => exact sustains.elim
  | destroy =>
      obtain ⟨next, answer, stepped, empty, gone⟩ := alive.destroy sustains
      exact ⟨next, answer, stepped, empty, Or.inr gone⟩
  | call op =>
      cases op with
      | register mod =>
          obtain ⟨next, answer, stepped, member, still⟩ :=
            alive.register (legal.2 _ rfl) sustains
          exact ⟨next, answer, stepped, ⟨trivial, fun _ same => by cases same; exact member⟩,
            Or.inl still⟩
      | unregister mod =>
          obtain ⟨next, answer, stepped, still⟩ := alive.unregister (legal.2 _ rfl)
          exact ⟨next, answer, stepped, ⟨trivial, fun _ same => nomatch same⟩, Or.inl still⟩
      | getId id =>
          obtain ⟨next, answer, stepped, found, still⟩ := alive.getId sustains
          exact ⟨next, answer, stepped, ⟨found, fun _ same => nomatch same⟩, Or.inl still⟩
      | getName name =>
          obtain ⟨next, answer, stepped, found, still⟩ := alive.getName sustains
          exact ⟨next, answer, stepped, ⟨found, fun _ same => nomatch same⟩, Or.inl still⟩

/-- In every run whose events are sustained, the submodules are placed, and every further event
that is sustained is defined and does what it should. -/
theorem life_right {life : Life}
    (reached : (lifeMachine objCompare64).Reached Built
      (fun life event => LegalEvent life event ∧ Sustains life event) life) :
    Placed life.tracked ∧ ∀ event, LegalEvent life event → Sustains life event →
      ∃ next answer, lifeStep objCompare64 life event = some (next, answer) ∧
        Right life next answer event ∧ Placed next.tracked := by
  have preserves : (lifeMachine objCompare64).Preserves
      (fun life event => LegalEvent life event ∧ Sustains life event)
      fun life => Alive life ∨ (life.destroyed = true ∧ life.tracked.members = []) := by
    rintro life event next answer (alive | gone) ⟨legal, sustains⟩ stepped
    · obtain ⟨after, result, taken, -, still⟩ := alive.step legal sustains
      have same := taken.symm.trans stepped
      cases same
      exact still
    · exact absurd (gone.1.symm.trans legal.1) (by decide)
  have placed : ∀ life : Life,
      (Alive life ∨ (life.destroyed = true ∧ life.tracked.members = [])) → Placed life.tracked := by
    rintro life (alive | ⟨-, none⟩)
    · exact alive.placed
    · intro mod member
      rw [none] at member
      exact nomatch member
  have now := preserves.reached (fun start built => Or.inl (alive_of_built built)) reached
  refine ⟨placed life now, fun event legal sustains => ?_⟩
  rcases now with alive | gone
  · obtain ⟨next, answer, stepped, right, still⟩ := alive.step legal sustains
    exact ⟨next, answer, stepped, right, placed next still⟩
  · exact absurd (gone.1.symm.trans legal.1) (by decide)

/-- Modules that are numbered by their ids. -/
def numberedIds : ObjMem :=
  { numbered with objKey64 := fun obj => (BitVec.ofNat 32 obj).setWidth 64 }

def built (self : Module) : Life := ⟨⟨self, []⟩, [], false⟩

theorem built_ofSubs (depCnt : Nat) : Built (built (ofSubs numberedIds (fun _ => false) depCnt)) :=
  ⟨rfl, rfl, rfl, fun _ => ⟨_, rfl⟩, numberedIds, fun _ => false, Or.inr (Or.inr ⟨depCnt, rfl⟩)⟩

/-- The second registration of `Module(subs[])` with two submodules. -/
theorem life_right_registered :
    ∃ life next answer, life.tracked.members = [0] ∧
      lifeStep objCompare64 life (.call (.register 1)) = some (next, answer) ∧
        Right life next answer (.call (.register 1)) ∧ Placed next.tracked := by
  obtain ⟨life, stepped, members, alive, unmarked, chain, ptr, size, roomy⟩ : ∃ life,
      lifeStep objCompare64 (built (ofSubs numberedIds (fun _ => false) 2))
        (.call (.register 0)) = some (life, none) ∧ life.tracked.members = [0] ∧
      life.destroyed = false ∧ life.tracked.self.mState 1 = false ∧
      life.tracked.self.mem.mChain 1 = false ∧ life.tracked.self.mem.olPtr 1 = none ∧
      0 < life.tracked.self.mDepSiz ∧ ∀ tab, life.tracked.self.mNameTab = some tab →
        tab.dhElmCnt + 2 < 2 ^ 31 ∧
          (life.tracked.self.mDepCnt + 1 = life.tracked.self.mDepSiz →
            life.tracked.self.mDepSiz < 2 ^ 30) :=
    ⟨_, rfl, rfl, rfl, rfl, rfl, rfl, by decide, fun tab table => by
      cases table
      exact ⟨by decide, by decide⟩⟩
  have first : LegalEvent (built (ofSubs numberedIds (fun _ => false) 2)) (.call (.register 0)) ∧
      Sustains (built (ofSubs numberedIds (fun _ => false) 2)) (.call (.register 0)) := by
    refine ⟨⟨rfl, ?_⟩, by decide, fun marked => absurd marked (by decide), ?_⟩
    · rintro op same
      cases same
      exact fun _ => ⟨rfl, rfl⟩
    · intro tab table
      cases table
      exact ⟨by decide, by decide⟩
  have reached : (lifeMachine objCompare64).Reached Built
      (fun life event => LegalEvent life event ∧ Sustains life event) life :=
    (Machine.reached_start (built_ofSubs 2)).step first stepped
  obtain ⟨next, answer, again, right, placed⟩ := (life_right reached).2 (.call (.register 1))
    ⟨alive, by
      rintro op same
      cases same
      exact fun _ => ⟨chain, ptr⟩⟩
    ⟨size, fun marked => absurd (unmarked.symm.trans marked) (by decide), roomy⟩
  exact ⟨life, next, answer, members, again, right, placed⟩

/-- A module is registered, unregistered and registered again. -/
def registeredAgain : List Event :=
  [.call (.register 0), .call (.unregister 0), .call (.register 0)]

private theorem registeredAgain_runs :
    ((lifeMachine objCompare64).run (built (ofSubs numberedIds (fun _ => false) 1))
      registeredAgain).isSome = true := by
  decide +kernel

/-- The allocation writes behind its end, a first registration without slots writes to them, the
second registration of a module does not place it, and the destructor touches its empty slot. -/
theorem exists_life_not_right :
    lifeStep objCompare64 (built (new numberedIds fun _ => false)) (.allocDepmod 1) = none ∧
    lifeStep objCompare64 (built (ofSize numberedIds (fun _ => false) 8)) (.call (.register 0)) =
      none ∧
    lifeStep objCompare64 (built (ofSubs numberedIds (fun _ => false) 0)) (.call (.register 0)) =
      none ∧
    ¬ Placed ((lifeMachine objCompare64).final _ _ registeredAgain_runs).tracked ∧
    lifeStep objCompare64 ((lifeMachine objCompare64).final _ _ registeredAgain_runs) .destroy =
      none := by
  refine ⟨?_, ?_, ?_, ?_, ?_⟩
  · simp only [lifeStep, modAllocDepmod_eq_none, Option.map_none]
  · exact Option.isNone_iff_eq_none.mp (by decide +kernel)
  · exact Option.isNone_iff_eq_none.mp (by decide +kernel)
  · intro placed
    obtain ⟨arr, idx, held, indexed, -, stands⟩ := placed 0 (by decide +kernel)
    have empty : (((lifeMachine objCompare64).final _ _ registeredAgain_runs).tracked.self.mDepIdx.bind
        fun arr => (((lifeMachine objCompare64).final _ _
          registeredAgain_runs).tracked.self.mIndex 0).bind arr.slots) = none := by
      decide +kernel
    rw [held, indexed, Option.bind_some, Option.bind_some, stands] at empty
    cases empty
  · exact Option.isNone_iff_eq_none.mp (by decide +kernel)

end Module

end Tvntd
