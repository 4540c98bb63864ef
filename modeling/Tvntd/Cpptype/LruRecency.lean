import Tvntd.Lib.Machine
import Tvntd.Cpptype.LruResident

/-! # Recency of an `LruTable`

Over a hash that is an exact map, `m_lru` is the list of the residents by the
time of their last insertion or reference, and an insertion evicts from its
front. The times are kept outside the table (`Aged`): every operation is one
tick of a clock.
-/

namespace Tvntd

open Function

/-- An exact map from 64-bit and string keys to objects, with the pointers of `m_chain`. -/
structure ExactMap where
  objKey64 : Obj → Key64
  objKeystr : Obj → CStr
  mChain : Obj → Bool
  entries : Key64 ⊕ CStr → Option Obj
  elmCnt : Int

namespace ExactMap

def empty (objKey64 : Obj → Key64) (objKeystr : Obj → CStr) (mChain : Obj → Bool) : ExactMap where
  objKey64 := objKey64
  objKeystr := objKeystr
  mChain := mChain
  entries := fun _ => none
  elmCnt := 0

def insert (map : ExactMap) (key : Key64 ⊕ CStr) (obj : Obj) : Option ExactMap :=
  if map.mChain obj then none
  else some { map with
    mChain := update map.mChain obj true
    entries := update map.entries key (some obj)
    elmCnt := map.elmCnt + 1 }

def remove (map : ExactMap) (obj : Obj) : Option ExactMap :=
  if map.mChain obj then some { map with
    mChain := update map.mChain obj false
    entries := fun key => if map.entries key = some obj then none else map.entries key
    elmCnt := map.elmCnt - 1 }
  else none

def index : HashIndex ExactMap where
  objKey64 := objKey64
  objKeystr := objKeystr
  lookup64 := fun map key => some (map.entries (.inl key), map)
  lookupStr := fun map key => some (map.entries (.inr key), map)
  insertKey64 := fun map obj => map.insert (.inl (map.objKey64 obj)) obj
  insertKeystr := fun map obj => map.insert (.inr (map.objKeystr obj)) obj
  removeObj := remove
  size := elmCnt

/-- The map holds exactly these objects, each under its 64-bit key. -/
structure Indexed (map : ExactMap) (all : List Obj) : Prop where
  nodup : all.Nodup
  counted : map.elmCnt = all.length
  held : ∀ obj ∈ all, map.mChain obj = true
  exact : ∀ key obj, map.entries (.inl key) = some obj ↔ obj ∈ all ∧ map.objKey64 obj = key
  noNames : ∀ key, map.entries (.inr key) = none

variable {map : ExactMap} {all : List Obj} {obj : Obj}

theorem indexed_empty (objKey64 : Obj → Key64) (objKeystr : Obj → CStr) (mChain : Obj → Bool) :
    (empty objKey64 objKeystr mChain).Indexed [] where
  nodup := List.nodup_nil
  counted := rfl
  held := by simp
  exact := by simp [empty]
  noNames := fun _ => rfl

theorem Indexed.insert (indexed : map.Indexed all)
    (missed : map.entries (.inl (map.objKey64 obj)) = none) {next : ExactMap}
    (inserted : map.insert (.inl (map.objKey64 obj)) obj = some next) :
    next.Indexed (all ++ [obj]) := by
  unfold ExactMap.insert at inserted
  cases free : map.mChain obj with
  | true => simp [free] at inserted
  | false =>
      have fresh : obj ∉ all := by
        intro member
        rw [(indexed.exact _ obj).mpr ⟨member, rfl⟩] at missed
        cases missed
      rw [free] at inserted
      cases inserted
      constructor
      · exact List.nodup_append_comm.mp (List.nodup_cons.mpr ⟨fresh, indexed.nodup⟩)
      · change map.elmCnt + 1 = _
        rw [indexed.counted, List.length_append]
        rfl
      · intro other member
        by_cases same : other = obj
        · rw [same]
          exact update_self _ _ _
        · have before : other ∈ all := by simpa [same] using member
          exact (update_of_ne same _ _).trans (indexed.held other before)
      · intro key other
        change update map.entries (.inl (map.objKey64 obj)) (some obj) (.inl key) = _ ↔ _
        by_cases own : key = map.objKey64 obj
        · subst own
          rw [update_self, Option.some.injEq, List.mem_append, List.mem_singleton]
          constructor
          · rintro rfl
            exact ⟨.inr rfl, rfl⟩
          · rintro ⟨inside | rfl, shares⟩
            · rw [(indexed.exact _ other).mpr ⟨inside, shares⟩] at missed
              cases missed
            · rfl
        · rw [update_of_ne (by simpa using own), indexed.exact, List.mem_append,
            List.mem_singleton]
          constructor
          · exact fun ⟨inside, shares⟩ => ⟨.inl inside, shares⟩
          · rintro ⟨inside | rfl, shares⟩
            · exact ⟨inside, shares⟩
            · exact (own shares.symm).elim
      · intro key
        have other : (.inr key : Key64 ⊕ CStr) ≠ .inl (map.objKey64 obj) := by simp
        change update map.entries (.inl (map.objKey64 obj)) (some obj) (.inr key) = none
        rw [update_of_ne other, indexed.noNames]

theorem Indexed.remove (indexed : map.Indexed all) (member : obj ∈ all) :
    ∃ next, map.remove obj = some next ∧ next.Indexed (all.erase obj) := by
  refine ⟨_, if_pos (indexed.held obj member), ?_⟩
  constructor
  · exact indexed.nodup.erase obj
  · change map.elmCnt - 1 = _
    have some := List.length_pos_of_mem member
    rw [indexed.counted, List.length_erase_of_mem member]
    omega
  · intro other kept
    obtain ⟨differs, inside⟩ := indexed.nodup.mem_erase_iff.mp kept
    exact (update_of_ne differs _ _).trans (indexed.held other inside)
  · intro key other
    change (if map.entries (.inl key) = some obj then none else map.entries (.inl key)) = _ ↔ _
    rw [indexed.nodup.mem_erase_iff, and_assoc, ← indexed.exact]
    by_cases own : map.entries (.inl key) = some obj
    · rw [if_pos own, own, Option.some.injEq]
      constructor
      · exact fun none => by cases none
      · exact fun ⟨differs, same⟩ => (differs same.symm).elim
    · rw [if_neg own]
      constructor
      · intro found
        refine ⟨?_, found⟩
        rintro rfl
        exact own found
      · exact And.right
  · intro key
    change (if map.entries (.inr key) = some obj then none else map.entries (.inr key)) = none
    rw [indexed.noNames]
    exact if_neg (by simp)

private theorem index_laws : index.Laws Indexed where
  nodup := Indexed.nodup
  perm := by
    intro map all other indexed perm
    constructor
    · exact perm.nodup_iff.mp indexed.nodup
    · rw [← perm.length_eq]
      exact indexed.counted
    · exact fun obj member => indexed.held obj (perm.mem_iff.mpr member)
    · intro key obj
      rw [← perm.mem_iff]
      exact indexed.exact key obj
    · exact indexed.noNames
  size := Indexed.counted
  removeObj := Indexed.remove

private theorem index_searches : index.Searches64 Indexed where
  keeps := by
    intro map all key found next indexed looked
    cases looked
    exact ⟨indexed, fun obj held => ((indexed.exact key obj).mp held).1⟩
  adds := by
    intro map all obj middle next indexed missed inserted
    have same := Option.some.inj missed
    obtain ⟨none, rfl⟩ := Prod.mk.inj same
    exact indexed.insert none inserted

end ExactMap

namespace LruTable

/-! ## Runs with a clock -/

inductive RecencyOp where
  | insertKey64 (obj : Option Obj)
  | removeObj (obj : Option Obj)
  | refObj (obj : Obj)
  | clear

/-- A cache with the time of the last insertion or reference of every object. -/
structure Aged where
  table : LruTable ExactMap
  clock : Nat
  lastUse : Obj → Nat

namespace Aged

/-- The operation as the cache computes it. -/
def program : RecencyOp → LruM ExactMap Bool
  | .insertKey64 obj => LruTable.insertKey64 ExactMap.index obj
  | .removeObj obj => LruTable.removeObj ExactMap.index obj
  | .refObj obj => do
      LruTable.refObj (some obj)
      return true
  | .clear => do
      LruTable.clear ExactMap.index
      return true

/-- The resident with the key of an object. -/
def residentOf (table : LruTable ExactMap) (obj : Obj) : Option Obj :=
  table.mHash.entries (.inl (table.mHash.objKey64 obj))

/-- The object that an operation inserts or references. -/
def used (state : Aged) : RecencyOp → Option Obj
  | .insertKey64 (some obj) => some ((residentOf state.table obj).getD obj)
  | .refObj obj => some obj
  | .insertKey64 none | .removeObj _ | .clear => none

def useNow (state : Aged) (op : RecencyOp) : Obj → Nat :=
  match state.used op with
  | some obj => update state.lastUse obj (state.clock + 1)
  | none => state.lastUse

def step (state : Aged) (op : RecencyOp) : Option (Aged × Bool) :=
  match exec (program op) state.table with
  | (.ok ret, next) => some (⟨next, state.clock + 1, state.useNow op⟩, ret)
  | (.error _, _) => none

def machine : Machine Aged RecencyOp Bool := ⟨step⟩

/-- A new cache for at least one element, over any objects. -/
def Initial (state : Aged) : Prop :=
  ∃ maxElm objKey64 objKeystr mChain lruPtr, 1 ≤ maxElm ∧
    state = ⟨LruTable.init maxElm (.empty objKey64 objKeystr mChain) lruPtr, 0, fun _ => 0⟩

/-- Removals and references take residents. -/
def OnResidents (state : Aged) : RecencyOp → Prop
  | .removeObj (some obj) | .refObj obj => obj ∈ state.table.mLru
  | .insertKey64 _ | .removeObj none | .clear => True

instance (state : Aged) : ∀ op, Decidable (OnResidents state op)
  | .removeObj (some obj) | .refObj obj => inferInstanceAs (Decidable (obj ∈ state.table.mLru))
  | .insertKey64 _ | .removeObj none | .clear => isTrue trivial

/-- An object that is inserted while no resident has its key is in no other container. -/
def Unused (state : Aged) : RecencyOp → Prop
  | .insertKey64 (some obj) => residentOf state.table obj = none →
      state.table.mHash.mChain obj = false ∧ state.table.lruPtr obj = false
  | _ => True

/-- The hash and `m_lru` hold the same objects, under distinct keys, within the capacity and
in the order of their last use. -/
structure Recent (state : Aged) : Prop where
  exactly : ∀ key obj, state.table.mHash.entries key = some obj ↔
    obj ∈ state.table.mLru ∧ key = .inl (state.table.mHash.objKey64 obj)
  once : state.table.mLru.Nodup
  counted : state.table.mHash.elmCnt = state.table.mLru.length
  keys : ∀ first ∈ state.table.mLru, ∀ second ∈ state.table.mLru,
    state.table.mHash.objKey64 first = state.table.mHash.objKey64 second → first = second
  bounded : state.table.mLru.length ≤ state.table.mMaxElm
  byAge : state.table.mLru.Pairwise fun older newer => state.lastUse older < state.lastUse newer

/-- The residents that an operation would leave without a capacity. -/
def kept (state : Aged) : RecencyOp → List Obj
  | .insertKey64 (some obj) =>
      if residentOf state.table obj = none then state.table.mLru ++ [obj] else state.table.mLru
  | .removeObj (some obj) => state.table.mLru.erase obj
  | .clear => []
  | .insertKey64 none | .removeObj none | .refObj _ => state.table.mLru

/-- The operation evicts what exceeds the capacity, each time the least recently used object
there is, and counts it; nothing else of what it keeps is lost. -/
def EvictsOldest (before : Aged) (op : RecencyOp) (after : Aged) : Prop :=
  ∃ gone, (before.kept op).Perm (gone ++ after.table.mLru) ∧
    gone.length = (before.kept op).length - before.table.mMaxElm.toNat ∧
    after.table.mKickCnt = before.table.mKickCnt + BitVec.ofNat 32 gone.length ∧
    (gone ++ after.table.mLru).Pairwise fun older newer =>
      after.lastUse older < after.lastUse newer

/-! ## One operation -/

/-- What holds between two operations of a run. -/
structure Keeps (state : Aged) : Prop where
  resident : state.table.Resident ExactMap.Indexed
  unlocked : state.table.mLock.held = false
  past : ∀ obj, state.lastUse obj ≤ state.clock
  byAge : state.table.mLru.Pairwise fun older newer => state.lastUse older < state.lastUse newer

variable {state : Aged}

private theorem Keeps.recent (keeps : state.Keeps) : state.Recent where
  exactly := by
    intro key obj
    have indexed := keeps.resident.holds
    cases key with
    | inl key =>
        rw [indexed.exact, Sum.inl.injEq]
        exact and_congr_right fun _ => eq_comm
    | inr key => simp [indexed.noNames]
  once := keeps.resident.holds.nodup
  counted := keeps.resident.holds.counted
  keys := by
    intro first inside second other same
    have exact := keeps.resident.holds.exact
    have found := (exact _ first).mpr ⟨inside, same⟩
    rw [(exact _ second).mpr ⟨other, rfl⟩, Option.some.injEq] at found
    exact found.symm
  bounded := keeps.resident.bounded
  byAge := keeps.byAge

private theorem keeps_initial (initial : Initial state) : state.Keeps := by
  obtain ⟨maxElm, objKey64, objKeystr, mChain, lruPtr, positive, rfl⟩ := initial
  constructor
  · refine ⟨⟨ExactMap.indexed_empty objKey64 objKeystr mChain, ?_⟩, positive, ?_⟩
    · exact fun obj none => (List.not_mem_nil none).elim
    · change (0 : Int) ≤ maxElm
      omega
  · rfl
  · exact fun obj => Nat.le_refl 0
  · exact List.Pairwise.nil

/-- Using an object now makes it the newest of a list that had it last. -/
theorem pairwise_useNow {lastUse : Obj → Nat} {clock : Nat} (past : ∀ obj, lastUse obj ≤ clock)
    {all : List Obj} {obj : Obj} (fresh : obj ∉ all)
    (byAge : all.Pairwise fun older newer => lastUse older < lastUse newer) :
    (all ++ [obj]).Pairwise fun older newer =>
      update lastUse obj (clock + 1) older <
        update lastUse obj (clock + 1) newer := by
  have others : ∀ other ∈ all, other ≠ obj := fun other inside same => fresh (same ▸ inside)
  rw [List.pairwise_append]
  refine ⟨?_, List.pairwise_singleton _ _, ?_⟩
  · refine byAge.imp_of_mem ?_
    intro older newer inside after before
    rw [update_of_ne (others older inside), update_of_ne (others newer after)]
    exact before
  · intro older inside newer last
    rw [List.mem_singleton.mp last, update_self,
      update_of_ne (others older inside)]
    exact Nat.lt_succ_of_le (past older)

private theorem past_useNow {lastUse : Obj → Nat} {clock : Nat} (past : ∀ obj, lastUse obj ≤ clock)
    (used obj : Obj) : update lastUse used (clock + 1) obj ≤ clock + 1 := by
  by_cases same : obj = used
  · rw [same, update_self]
  · rw [update_of_ne same]
    exact Nat.le_succ_of_le (past obj)

theorem step_eq {op : RecencyOp} {ret : Bool} {next : LruTable ExactMap}
    (ran : exec (program op) state.table = (.ok ret, next)) :
    state.step op = some (⟨next, state.clock + 1, state.useNow op⟩, ret) := by
  unfold step
  rw [ran]

private theorem step_none {op : RecencyOp} {fault : Fault} {next : LruTable ExactMap}
    (stopped : exec (program op) state.table = (.error fault, next)) : state.step op = none := by
  unfold step
  rw [stopped]

/-- An operation that neither evicts nor uses an object keeps the order of what it leaves. -/
theorem Keeps.of_sublist (keeps : state.Keeps) (op : RecencyOp) (idle : state.used op = none)
    {next : LruTable ExactMap} (resident : next.Resident ExactMap.Indexed)
    (unlocked : next.mLock.held = false) (left : next.mLru.Sublist state.table.mLru) :
    Keeps ⟨next, state.clock + 1, state.useNow op⟩ where
  resident := resident
  unlocked := unlocked
  past := by
    intro obj
    unfold useNow
    rw [idle]
    exact Nat.le_succ_of_le (keeps.past obj)
  byAge := by
    unfold useNow
    rw [idle]
    exact keeps.byAge.sublist left

/-- Nothing is evicted when an operation leaves all it keeps. -/
theorem evictsOldest_of_perm {op : RecencyOp} {after : Aged} (keeps : after.Keeps)
    (same : (state.kept op).Perm after.table.mLru)
    (capacity : after.table.mMaxElm = state.table.mMaxElm)
    (kicks : after.table.mKickCnt = state.table.mKickCnt) : EvictsOldest state op after := by
  refine ⟨[], same, ?_, ?_, keeps.byAge⟩
  · have bounded := keeps.resident.bounded
    rw [← same.length_eq, capacity] at bounded
    rw [List.length_nil]
    omega
  · rw [kicks]
    simp

/-- Referencing a resident makes it the newest. -/
theorem Keeps.touch (keeps : state.Keeps) (op : RecencyOp) {ref : Obj}
    (uses : state.used op = some ref)
    {next : LruTable ExactMap} (resident : next.Resident ExactMap.Indexed)
    (unlocked : next.mLock.held = false) (moved : next.mLru = state.table.mLru.erase ref ++ [ref]) :
    Keeps ⟨next, state.clock + 1, state.useNow op⟩ where
  resident := resident
  unlocked := unlocked
  past := by
    unfold useNow
    rw [uses]
    exact past_useNow keeps.past ref
  byAge := by
    have nodup := keeps.resident.holds.nodup
    unfold useNow
    rw [uses]
    change next.mLru.Pairwise _
    rw [moved]
    exact pairwise_useNow keeps.past (fun still => (nodup.mem_erase_iff.mp still).1 rfl)
      (keeps.byAge.sublist List.erase_sublist)

/-- An insertion that misses makes its object the newest and evicts from the front. -/
theorem Keeps.insertMissed (keeps : state.Keeps) {obj : Obj}
    (missed : residentOf state.table obj = none) (chained : state.table.mHash.mChain obj = false)
    (unlinked : state.table.lruPtr obj = false) :
    ∃ after ret, state.step (.insertKey64 (some obj)) = some (after, ret) ∧ after.Keeps ∧
      EvictsOldest state (.insertKey64 (some obj)) after := by
  have indexed := keeps.resident.holds
  have looked : ExactMap.index.lookup64 state.table.mHash
      (ExactMap.index.objKey64 state.table.mHash obj) = some (none, state.table.mHash) :=
    congrArg (fun r => some (r, _)) missed
  have fresh : obj ∉ state.table.mLru := by
    intro member
    rw [residentOf, (indexed.exact _ obj).mpr ⟨member, rfl⟩] at missed
    cases missed
  have uses : state.used (.insertKey64 (some obj)) = some obj := by
    rw [used, missed]
    rfl
  have room : state.kept (.insertKey64 (some obj)) = state.table.mLru ++ [obj] := by
    rw [kept, if_pos missed]
  obtain ⟨hash, inserted⟩ :
      ∃ hash, ExactMap.index.insertKey64 state.table.mHash obj = some hash := by
    refine ⟨_, if_neg ?_⟩
    rw [chained]
    exact Bool.false_ne_true
  obtain ⟨final, -, ran, resident⟩ := exec_insertKey64_miss ExactMap.index_laws
    ExactMap.index_searches keeps.resident keeps.unlocked looked inserted unlinked
  have aged := pairwise_useNow keeps.past fresh keeps.byAge
  have excess : (state.table.added hash obj).surplus =
      (state.table.mLru ++ [obj]).length - state.table.mMaxElm.toNat := rfl
  refine ⟨_, _, step_eq ran, ⟨resident.unlocked, rfl, ?_, ?_⟩, ?_⟩
  · unfold useNow
    rw [uses]
    exact past_useNow keeps.past obj
  · unfold useNow
    rw [uses]
    exact aged.sublist (List.drop_sublist _ _)
  · refine ⟨(state.table.mLru ++ [obj]).take (state.table.added hash obj).surplus, ?_, ?_, ?_, ?_⟩
    · rw [room]
      exact List.Perm.of_eq (List.take_append_drop _ _).symm
    · rw [room, List.length_take, excess]
      exact Nat.min_eq_left (Nat.sub_le _ _)
    · rw [List.length_take, excess, Nat.min_eq_left (Nat.sub_le _ _)]
      rfl
    · unfold useNow
      rw [uses]
      exact (List.take_append_drop _ _).symm ▸ aged

/-- **One operation.** It keeps the state in order and evicts only the oldest, or it is an
insertion of an object in use that ends the program. -/
theorem Keeps.step (keeps : state.Keeps) {op : RecencyOp} (legal : state.OnResidents op) :
    (∃ after ret, state.step op = some (after, ret) ∧ after.Keeps ∧ EvictsOldest state op after) ∨
      ¬ state.Unused op ∧ state.step op = none := by
  have laws := ExactMap.index_laws
  have searches := ExactMap.index_searches
  have indexed := keeps.resident.holds
  cases op with
  | insertKey64 obj =>
      cases obj with
      | none =>
          have still : Keeps ⟨state.table, state.clock + 1, state.useNow (.insertKey64 none)⟩ :=
            keeps.of_sublist _ rfl keeps.resident keeps.unlocked (List.Sublist.refl _)
          exact .inl ⟨_, _, step_eq (exec_pure false), still,
            evictsOldest_of_perm still (List.Perm.refl _) rfl rfl⟩
      | some obj =>
          cases found : residentOf state.table obj with
          | some ref =>
              have looked : ExactMap.index.lookup64 state.table.mHash
                  (ExactMap.index.objKey64 state.table.mHash obj) =
                    some (some ref, state.table.mHash) := congrArg (fun r => some (r, _)) found
              have member := ((indexed.exact _ ref).mp found).1
              have ran := exec_insertKey64_hit laws searches keeps.resident keeps.unlocked looked
              have uses : state.used (.insertKey64 (some obj)) = some ref := by
                rw [used, found]
                rfl
              have still := keeps.touch _ uses
                (keeps.resident.locked.hit laws indexed member).unlocked rfl rfl
              refine .inl ⟨_, _, step_eq ran, still, evictsOldest_of_perm still ?_ rfl rfl⟩
              rw [kept, found, if_neg (Option.some_ne_none ref)]
              exact perm_touched member
          | none =>
              by_cases unused : state.table.mHash.mChain obj = false ∧
                state.table.lruPtr obj = false
              · exact .inl (keeps.insertMissed found unused.1 unused.2)
              · refine .inr ⟨fun free => unused (free found), ?_⟩
                have looked : ExactMap.index.lookup64 state.table.mHash
                    (ExactMap.index.objKey64 state.table.mHash obj) =
                      some (none, state.table.mHash) := congrArg (fun r => some (r, _)) found
                have used : ExactMap.index.insertKey64 state.table.mHash obj = none ∨
                    state.table.lruPtr obj = true := by
                  cases held : state.table.mHash.mChain obj with
                  | true => exact .inl (if_pos held)
                  | false =>
                      refine .inr ?_
                      rw [not_and, Bool.not_eq_false] at unused
                      exact unused held
                obtain ⟨next, stopped, -⟩ :=
                  exec_insertKey64_aborts keeps.unlocked (.inr ⟨_, looked, used⟩)
                exact step_none stopped
  | removeObj obj =>
      cases obj with
      | none =>
          have still : Keeps ⟨state.table, state.clock + 1, state.useNow (.removeObj none)⟩ :=
            keeps.of_sublist _ rfl keeps.resident keeps.unlocked (List.Sublist.refl _)
          exact .inl ⟨_, _, step_eq (exec_pure false), still,
            evictsOldest_of_perm still (List.Perm.refl _) rfl rfl⟩
      | some obj =>
          obtain ⟨hash, removes, holds⟩ := laws.removeObj indexed legal
          have ran := exec_removeObj keeps.unlocked (keeps.resident.linked obj legal) removes
          have still := keeps.of_sublist (.removeObj (some obj)) rfl
            (keeps.resident.locked.removed laws holds).unlocked rfl List.erase_sublist
          exact .inl ⟨_, _, step_eq ran, still,
            evictsOldest_of_perm still (List.Perm.refl _) rfl rfl⟩
  | refObj obj =>
      have ran : exec (program (.refObj obj)) state.table =
          (.ok true, (state.table.locked.touched obj).unlocked) :=
        exec_bind_of_ok _ (exec_refObj keeps.unlocked (keeps.resident.linked obj legal))
      have still := keeps.touch (.refObj obj) rfl
        (keeps.resident.locked.touched laws legal).unlocked rfl rfl
      exact .inl ⟨_, _, step_eq ran, still,
        evictsOldest_of_perm still (perm_touched legal) rfl rfl⟩
  | clear =>
      obtain ⟨hash, cleared, holds⟩ := exec_clear laws keeps.resident.toLinked keeps.unlocked
      have ran : exec (program .clear) state.table = (.ok true, _) :=
        exec_bind_of_ok _ cleared
      have still := keeps.of_sublist .clear rfl
        (keeps.resident.locked.cleared holds).unlocked rfl (List.drop_sublist _ _)
      refine .inl ⟨_, _, step_eq ran, still, evictsOldest_of_perm still ?_ rfl rfl⟩
      exact List.Perm.of_eq List.drop_length.symm

theorem keeps_of_reached (reached : machine.Reached Initial OnResidents state) : state.Keeps := by
  have preserves : machine.Preserves OnResidents Keeps := by
    intro before op next ret keeps legal stepped
    rcases keeps.step legal with ⟨after, result, taken, still, -⟩ | ⟨-, refused⟩
    · rw [show before.step op = some (next, ret) from stepped, Option.some.injEq,
        Prod.mk.injEq] at taken
      exact taken.1 ▸ still
    · rw [show before.step op = some (next, ret) from stepped] at refused
      cases refused
  exact preserves.reached (fun _ => keeps_initial) reached

/-- **Recency.** In every state of a run the hash and `m_lru` hold the same objects once, under
distinct keys, within the capacity and by the time of their last use. The next operation evicts
the least recently used objects only, and it returns unless it inserts an object in use. -/
theorem recent_of_reached (reached : machine.Reached Initial OnResidents state) :
    state.Recent ∧ ∀ op, state.OnResidents op →
      (state.Unused op → (state.step op).isSome) ∧
        ∀ after ret, state.step op = some (after, ret) → EvictsOldest state op after := by
  have keeps := keeps_of_reached reached
  refine ⟨keeps.recent, ?_⟩
  intro op legal
  rcases keeps.step legal with ⟨after, ret, taken, -, evicts⟩ | ⟨inUse, refused⟩
  · rw [taken]
    refine ⟨fun _ => rfl, ?_⟩
    intro next result same
    cases same
    exact evicts
  · rw [refused]
    exact ⟨fun unused => (inUse unused).elim, fun next result none => by cases none⟩

/-- A cache for two objects, each under its own number. -/
def twoElements : Aged :=
  ⟨LruTable.init 2 (.empty (BitVec.ofNat 64) (fun _ => ⟨[], CStr.ended_nil⟩) fun _ => false)
    fun _ => false, 0, fun _ => 0⟩

def thirdInsertion : List RecencyOp :=
  [.insertKey64 (some 1), .insertKey64 (some 2), .refObj 1, .insertKey64 (some 3)]

/-- The third insertion evicts the second object: the first was referenced after it. -/
theorem recent_of_reached_evicted :
    ∃ final, machine.run twoElements thirdInsertion = some final ∧
      final.1.table.mLru = [1, 3] ∧ final.1.Recent := by
  have runs : (machine.run twoElements thirdInsertion).isSome := by decide +kernel
  obtain ⟨⟨state, rets⟩, ran⟩ := Option.isSome_iff_exists.mp runs
  have order : (machine.run twoElements thirdInsertion).map (fun final => final.1.table.mLru) =
      some [1, 3] := by decide +kernel
  rw [ran] at order
  refine ⟨_, ran, Option.some.inj order, (recent_of_reached ⟨twoElements, thirdInsertion, rets,
    ⟨2, _, _, _, _, by decide, rfl⟩, ?_, ran⟩).1⟩
  decide +kernel

end Aged

end LruTable

end Tvntd
