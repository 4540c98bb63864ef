import Mathlib.Data.List.Nodup
import Tvntd.Lib.Machine
import Tvntd.Ctype.UuidMap

/-! # Runs of the uuid map

The mask of `objid_init_ctrl` has one bit for every turn of a loop over all
entries, so it has all 32 bits and `objid_index` returns the id itself. A lookup
by id therefore searches the bucket of that number, while the record is in the
bucket of its uuid: they agree exactly for the first record of a bucket other
than the first bucket.
-/

namespace Tvntd

open UuidMapCtrl Function

/-! ## The index mask -/

theorem idxMaskLoop_allOnes {turns : Nat} (enough : 32 ≤ turns) :
    idxMaskLoop turns = BitVec.allOnes 32 := by
  induction turns, enough using Nat.le_induction with
  | base => decide
  | succ turns _ ih => rw [idxMaskLoop, ih, BitVec.allOnes_or]

def mapEntries : Nat := 1 <<< uuidMapRecShft

theorem mapEntries_eq : mapEntries = 65536 := rfl

theorem uuidMapStdInit_mask (maps : Nat → UuidMap) :
    (uuidMapStdInit maps).uidIdxMask = BitVec.allOnes 32 :=
  idxMaskLoop_allOnes (by decide)

theorem objidIndex_of_allOnes {self : UuidMapCtrl} (mask : self.uidIdxMask = BitVec.allOnes 32)
    (id : ObjId) : (self.objidIndex id).2 = id := by
  unfold UuidMapCtrl.objidIndex
  rw [mask, BitVec.and_allOnes]

theorem objidHashCmpFn_eq_zero (self : UuidMapCtrl) (e1 e2 : MapLink) :
    self.objidHashCmpFn e1 e2 = 0 ↔ (self.objectOf e1).uid128 = (self.objectOf e2).uid128 := by
  unfold objidHashCmpFn
  by_cases same : (self.objectOf e1).uid128 = (self.objectOf e2).uid128
  · rw [if_pos same, iff_true_left rfl]
    exact same
  · rw [if_neg same]
    exact iff_of_false (by decide) same

private theorem objidIdCmpFn_eq_zero (self : UuidMapCtrl) (e1 e2 : MapLink) :
    self.objidIdCmpFn e1 e2 = 0 ↔ (self.objectOf e1).uidObjId = (self.objectOf e2).uidObjId := by
  unfold objidIdCmpFn
  by_cases same : (self.objectOf e1).uidObjId = (self.objectOf e2).uidObjId
  · rw [if_pos same, iff_true_left rfl]
    exact same
  · rw [if_neg same]
    exact iff_of_false (by decide) same

/-! ## Calls -/

/-- The calls of the map. -/
inductive MapCall where
  | map64 (uuid : BitVec 64) (ptr : Ptr)
  | map128 (uuid : Uuid128) (ptr : Ptr)

namespace MapCall

def uuid : MapCall → Uuid128
  | map64 uuid _ => ⟨uuid, invalUuid⟩
  | map128 uuid _ => uuid

def ptr : MapCall → Ptr
  | map64 _ ptr => ptr
  | map128 _ ptr => ptr

end MapCall

namespace UuidMapCtrl

def step (self : UuidMapCtrl) : MapCall → Option (UuidMapCtrl × ObjId)
  | .map64 uuid ptr => (self.objidMapUuid64 uuid ptr).map Prod.swap
  | .map128 uuid ptr => (self.objidMapUuid128 uuid ptr).map Prod.swap

def machine : Machine UuidMapCtrl MapCall ObjId := ⟨step⟩

/-- A 64-bit uuid is a 128-bit uuid without a high half. -/
theorem step_eq (self : UuidMapCtrl) (call : MapCall) :
    self.step call = (self.objidMapUuid128 call.uuid call.ptr).map Prod.swap := by
  cases call with
  | map64 uuid ptr => rfl
  | map128 uuid ptr => rfl

/-- The bucket of a uuid. -/
def uuidBucket (uuid : Uuid128) : Nat := (objidHash uuid).toNat % mapEntries

theorem uuidBucket_lt (uuid : Uuid128) : uuidBucket uuid < mapEntries := Nat.mod_lt _ (by decide)

/-- What `objid_uuid_lookup` writes for a uuid: the other kind is set to zero. -/
def uuidOut (uuid : Uuid128) : BitVec 64 × Uuid128 :=
  if uuid.uuidHi = invalUuid then (uuid.uuidLo, .nil) else (invalUuid, uuid)

private theorem uuidOut_injective : Function.Injective uuidOut := by
  intro first second same
  unfold uuidOut at same
  by_cases narrow : first.uuidHi = invalUuid
  · by_cases other : second.uuidHi = invalUuid
    · rw [if_pos narrow, if_pos other] at same
      cases first
      cases second
      cases narrow
      cases other
      exact congrArg (fun lo => (⟨lo, invalUuid⟩ : Uuid128)) (Prod.mk.inj same).1
    · rw [if_pos narrow, if_neg other] at same
      exact (other ((Prod.mk.inj same).2 ▸ rfl)).elim
  · by_cases other : second.uuidHi = invalUuid
    · rw [if_neg narrow, if_pos other] at same
      exact (narrow ((Prod.mk.inj same).2 ▸ rfl)).elim
    · rw [if_neg narrow, if_neg other] at same
      exact (Prod.mk.inj same).2

/-- The pointer that a uuid was first mapped with. -/
def firstPtr (calls : List MapCall) (uuid : Uuid128) : Option Ptr :=
  (calls.find? fun call => call.uuid = uuid).map MapCall.ptr

/-- What one call of a sequence promises, once the sequence ended in a state. -/
structure Promises (final : UuidMapCtrl) (calls : List MapCall) (ids : List ObjId)
    (call : MapCall) (id : ObjId) : Prop where
  notNil : id ≠ objIdNil
  unique : ∀ other otherId, (other, otherId) ∈ calls.zip ids →
    firstPtr calls other.uuid = some other.ptr → (otherId = id ↔ other.uuid = call.uuid)
  byId : ∀ uuid64 uuid128, final.objidUuidLookup id (some uuid64) (some uuid128) =
    some (call.ptr, some (uuidOut call.uuid).1, some (uuidOut call.uuid).2)
  byUuid128 : final.uuid128ObjidLookup call.uuid = some (call.ptr, id)
  byUuid64 : call.uuid.uuidHi = invalUuid →
    final.uuid64ObjidLookup call.uuid.uuidLo = some (call.ptr, id)

/-- No assertion fails along the sequence, and every call that maps its uuid with the pointer
the uuid was first mapped with keeps its promises. -/
def Correct (maps : Nat → UuidMap) (calls : List MapCall) : Prop :=
  ∃ final ids, machine.run (uuidMapStdInit maps) calls = some (final, ids) ∧
    ∀ call id, (call, id) ∈ calls.zip ids → firstPtr calls call.uuid = some call.ptr →
      Promises final calls ids call id

/-- The uuids are in distinct buckets, and none is in the first one. -/
def Spread (calls : List MapCall) : Prop :=
  ∀ call ∈ calls, uuidBucket call.uuid ≠ 0 ∧
    ∀ other ∈ calls, uuidBucket other.uuid = uuidBucket call.uuid → other.uuid = call.uuid

/-! ## Every run keeps the records in the buckets of their uuids -/

/-- The records of a chain have their uuids in its bucket and are not free. -/
structure Sound (ctrl : UuidMapCtrl) : Prop where
  mask : ctrl.uidIdxMask = BitVec.allOnes 32
  sized : ctrl.uidTable.shBkSize = mapEntries
  nodup : ctrl.uidFreeMap.Nodup
  chained : ∀ i link, link ∈ ctrl.uidTable.shBucket i →
    ∃ map, link = .entry map ∧ map ∉ ctrl.uidFreeMap ∧
      uuidBucket (ctrl.uidMapRecs map).uid128 = i

variable {self next : UuidMapCtrl}

theorem sound_init (maps : Nat → UuidMap) : (uuidMapStdInit maps).Sound where
  mask := uuidMapStdInit_mask maps
  sized := rfl
  nodup := List.nodup_range'
  chained := fun _ _ none => (List.not_mem_nil none).elim

/-- The state in which `objid_add_mapping` gets a record with this uuid and pointer. -/
def taken (self : UuidMapCtrl) (map : Nat) (rest : List Nat) (uuid : Uuid128) (ptr : Ptr) :
    UuidMapCtrl :=
  { self with uidFreeMap := rest }.setRec map ⟨ptr, (self.uidMapRecs map).uidObjId, uuid⟩

theorem objidMapUuid128_eq {map : Nat} {rest : List Nat} (free : self.uidFreeMap = map :: rest)
    (uuid : Uuid128) (ptr : Ptr) :
    self.objidMapUuid128 uuid ptr = (self.taken map rest uuid ptr).objidAddMapping map := by
  unfold objidMapUuid128 objidAllocMapRec
  rw [free]
  rfl

theorem taken_self (self : UuidMapCtrl) (map : Nat) (rest : List Nat) (uuid : Uuid128)
    (ptr : Ptr) : (self.taken map rest uuid ptr).uidMapRecs map =
      ⟨ptr, (self.uidMapRecs map).uidObjId, uuid⟩ := update_self _ _ _

theorem taken_other (self : UuidMapCtrl) {map other : Nat} (differs : other ≠ map)
    (rest : List Nat) (uuid : Uuid128) (ptr : Ptr) :
    (self.taken map rest uuid ptr).uidMapRecs other = self.uidMapRecs other :=
  update_of_ne differs _ _

/-- A record that leaves the free list is in no chain. -/
theorem Sound.taken (sound : self.Sound) {map : Nat} {rest : List Nat}
    (free : self.uidFreeMap = map :: rest) (uuid : Uuid128) (ptr : Ptr) :
    (self.taken map rest uuid ptr).Sound ∧
      ∀ i, .entry map ∉ (self.taken map rest uuid ptr).uidTable.shBucket i := by
  have absent : ∀ i, .entry map ∉ self.uidTable.shBucket i := by
    intro i linked
    obtain ⟨other, same, notFree, -⟩ := sound.chained i _ linked
    rw [free] at notFree
    exact notFree (MapLink.entry.inj same ▸ List.mem_cons_self)
  have nodup := sound.nodup
  rw [free] at nodup
  refine ⟨⟨sound.mask, sound.sized, (List.nodup_cons.mp nodup).2, ?_⟩, absent⟩
  intro i link linked
  obtain ⟨other, rfl, notFree, placed⟩ := sound.chained i link linked
  have differs : other ≠ map := fun same => absent i (same ▸ linked)
  refine ⟨other, rfl, fun inside => notFree (free ▸ List.mem_cons_of_mem _ inside), ?_⟩
  rw [self.taken_other differs]
  exact placed

theorem shashIndex_taken (sized : self.uidTable.shBkSize = mapEntries) (link : MapLink) :
    shashIndex self.uidTableFn self.uidTable link =
      some (uuidBucket (self.objectOf link).uid128) := by
  unfold shashIndex
  have inside : self.uidTableFn.shHashFn self.uidTable.shBkSize link < self.uidTable.shBkSize := by
    rw [sized]
    exact uuidBucket_lt _
  rw [if_pos inside, sized]
  rfl

/-- Linking or freeing the record keeps the chains sound. -/
theorem Sound.addMapping (sound : self.Sound) {map : Nat} (fresh : map ∉ self.uidFreeMap)
    (absent : ∀ i, .entry map ∉ self.uidTable.shBucket i) {id : ObjId}
    (added : self.objidAddMapping map = some (id, next)) : next.Sound := by
  unfold objidAddMapping at added
  rw [shashIndex_taken sound.sized, Option.bind_some] at added
  obtain ⟨⟨found, col⟩, -, added⟩ := Option.bind_eq_some_iff.mp added
  cases found with
  | some link =>
      cases link with
      | stack rec => cases added
      | entry rec =>
          by_cases same : map = rec
          · simp [same] at added
          · simp only [same, if_false, Option.some.injEq, Prod.mk.injEq] at added
            obtain ⟨-, rfl⟩ := added
            refine ⟨sound.mask, sound.sized, ?_, ?_⟩
            · exact List.nodup_append_comm.mp (List.nodup_cons.mpr ⟨fresh, sound.nodup⟩)
            · intro i link linked
              obtain ⟨other, rfl, notFree, placed⟩ := sound.chained i link linked
              refine ⟨other, rfl, ?_, placed⟩
              have differs : other ≠ map := fun same => absent i (same ▸ linked)
              change other ∉ self.uidFreeMap ++ [map]
              simp [notFree, differs]
  | none =>
      dsimp only at added
      split at added
      · cases added
      · rw [Option.some.injEq, Prod.mk.injEq] at added
        obtain ⟨-, rfl⟩ := added
        refine ⟨sound.mask, sound.sized, sound.nodup, ?_⟩
        intro i link linked
        change link ∈ update self.uidTable.shBucket _ _ i at linked
        have appended : link ∈ self.uidTable.shBucket i ∨
            link = .entry map ∧ i = uuidBucket (self.uidMapRecs map).uid128 := by
          by_cases own : i = uuidBucket (self.uidMapRecs map).uid128
          · rw [own, show uuidBucket (self.uidMapRecs map).uid128 =
              uuidBucket (self.objectOf (.entry map)).uid128 from rfl, update_self,
              List.mem_append, List.mem_singleton] at linked
            rcases linked with inside | last
            · exact .inl (own ▸ inside)
            · exact .inr ⟨last, own⟩
          · rw [show uuidBucket (self.uidMapRecs map).uid128 =
              uuidBucket (self.objectOf (.entry map)).uid128 from rfl] at own
            rw [update_of_ne own] at linked
            exact .inl linked
        rcases appended with inside | ⟨rfl, rfl⟩
        · obtain ⟨other, rfl, notFree, placed⟩ := sound.chained i link inside
          have differs : other ≠ map := fun same => absent i (same ▸ inside)
          refine ⟨other, rfl, notFree, ?_⟩
          change uuidBucket (update self.uidMapRecs map _ other).uid128 = i
          rw [update_of_ne differs]
          exact placed
        · refine ⟨map, rfl, fresh, ?_⟩
          change uuidBucket (update self.uidMapRecs map _ map).uid128 = _
          rw [update_self]

theorem Sound.step (sound : self.Sound) {call : MapCall} {id : ObjId}
    (stepped : self.step call = some (next, id)) : next.Sound := by
  rw [step_eq] at stepped
  obtain ⟨⟨given, after⟩, mapped, same⟩ := Option.map_eq_some_iff.mp stepped
  cases same
  cases free : self.uidFreeMap with
  | nil =>
      unfold objidMapUuid128 objidAllocMapRec at mapped
      rw [free] at mapped
      cases mapped
  | cons map rest =>
      rw [objidMapUuid128_eq free] at mapped
      have nodup := sound.nodup
      rw [free] at nodup
      obtain ⟨still, absent⟩ := sound.taken free call.uuid call.ptr
      exact still.addMapping (List.nodup_cons.mp nodup).1 absent mapped

private theorem sound_of_run {maps : Nat → UuidMap} {calls : List MapCall} {final : UuidMapCtrl}
    {ids : List ObjId} (ran : machine.run (uuidMapStdInit maps) calls = some (final, ids)) :
    final.Sound := by
  have preserves : machine.Preserves (fun _ _ => True) Sound :=
    fun _ _ _ _ sound _ stepped => sound.step stepped
  exact preserves.run (sound_init maps) (Machine.meets_of_forall (fun _ _ => trivial) _ _) ran

/-- With the mask of the source a lookup by id searches the bucket of that number. -/
theorem objidUuidLookup_eq (mask : self.uidIdxMask = BitVec.allOnes 32) (id : ObjId)
    (uuid64 : BitVec 64) (uuid128 : Uuid128) :
    self.objidUuidLookup id (some uuid64) (some uuid128) =
      if id.toNat < self.uidTable.shBkSize then
        match (self.uidTable.shBucket id.toNat).find? fun link =>
            (self.objectOf link).uidObjId = id with
        | some link => some ((self.objectOf link).uidPtr,
            some (uuidOut (self.objectOf link).uid128).1,
            some (uuidOut (self.objectOf link).uid128).2)
        | none => some (nullptr, some invalUuid, some uuid128)
      else none := by
  have same : ∀ link, decide (self.objidIdCmpFn link (.stack ⟨nullptr, id, .nil⟩) = 0) =
      decide ((self.objectOf link).uidObjId = id) := by
    intro link
    exact decide_eq_decide.mpr (objidIdCmpFn_eq_zero self link _)
  unfold objidUuidLookup
  dsimp only
  rw [objidIndex_of_allOnes mask, slinkFind_eq]
  simp only [same, Option.map_some]
  congr 1
  cases (self.uidTable.shBucket id.toNat).find? fun link => (self.objectOf link).uidObjId = id with
  | none => rfl
  | some link =>
      by_cases narrow : (self.objectOf link).uid128.uuidHi = invalUuid
      · simp only [uuidOut, if_pos narrow]
      · simp only [uuidOut, if_neg narrow]

instance : Nontrivial Uuid128 := ⟨.nil, ⟨1, 0⟩, by decide⟩

/-- A lookup by id that finds the uuid found it in the bucket of that number. -/
theorem Sound.bucket_eq_id (sound : self.Sound) {id : ObjId} {ptr : Ptr} {uuid : Uuid128}
    (byId : ∀ uuid64 uuid128, self.objidUuidLookup id (some uuid64) (some uuid128) =
      some (ptr, some (uuidOut uuid).1, some (uuidOut uuid).2)) : uuidBucket uuid = id.toNat := by
  obtain ⟨other, differs⟩ := exists_ne (uuidOut uuid).2
  have looked := byId invalUuid other
  rw [objidUuidLookup_eq sound.mask] at looked
  by_cases inside : id.toNat < self.uidTable.shBkSize
  · rw [if_pos inside] at looked
    cases found : (self.uidTable.shBucket id.toNat).find? fun link =>
        (self.objectOf link).uidObjId = id with
    | none =>
        rw [found] at looked
        simp only [Option.some.injEq, Prod.mk.injEq] at looked
        exact (differs looked.2.2).elim
    | some link =>
        rw [found] at looked
        simp only [Option.some.injEq, Prod.mk.injEq] at looked
        obtain ⟨map, rfl, -, placed⟩ := sound.chained _ _ (List.mem_of_find?_eq_some found)
        have out := uuidOut_injective (Prod.ext looked.2.1 looked.2.2)
        rw [← out]
        exact placed
  · rw [if_neg inside] at looked
    cases looked

private theorem firstPtr_of_mem {calls : List MapCall} {call : MapCall} (member : call ∈ calls) :
    ∃ first ∈ calls, first.uuid = call.uuid ∧ firstPtr calls first.uuid = some first.ptr := by
  have some : (calls.find? fun other => other.uuid = call.uuid).isSome := by
    rw [List.find?_isSome]
    exact ⟨call, member, decide_eq_true rfl⟩
  obtain ⟨first, found⟩ := Option.isSome_iff_exists.mp some
  have at_ : decide (first.uuid = call.uuid) = true :=
    List.find?_some (p := fun other : MapCall => decide (other.uuid = call.uuid)) found
  have same := of_decide_eq_true at_
  refine ⟨first, List.mem_of_find?_eq_some found, same, ?_⟩
  rw [firstPtr, same, found]
  rfl

/-- A run gives every call its id. -/
theorem exists_id_of_mem {State Label Output : Type} {m : Machine State Label Output}
    {labels : List Label} : ∀ {state final : State} {outputs : List Output},
      m.run state labels = some (final, outputs) → ∀ label ∈ labels,
        ∃ output, (label, output) ∈ labels.zip outputs := by
  induction labels with
  | nil => exact fun _ label none => (List.not_mem_nil none).elim
  | cons head rest ih =>
      intro state final outputs ran label member
      obtain ⟨next, output, later, -, tail, rfl⟩ := Machine.run_cons_eq_some ran
      rcases List.mem_cons.mp member with rfl | inside
      · exact ⟨output, List.mem_cons_self⟩
      · obtain ⟨given, paired⟩ := ih tail label inside
        exact ⟨given, List.mem_cons_of_mem _ paired⟩

/-- Sequences that keep their promises have their uuids in distinct buckets. -/
theorem spread_of_correct {maps : Nat → UuidMap} {calls : List MapCall}
    (correct : Correct maps calls) : Spread calls := by
  obtain ⟨final, ids, ran, promises⟩ := correct
  have sound := sound_of_run ran
  have bucket : ∀ call ∈ calls, ∃ first id, (first, id) ∈ calls.zip ids ∧
      first.uuid = call.uuid ∧ firstPtr calls first.uuid = some first.ptr ∧
      Promises final calls ids first id ∧ uuidBucket call.uuid = id.toNat := by
    intro call member
    obtain ⟨first, inside, same, kept⟩ := firstPtr_of_mem member
    obtain ⟨id, paired⟩ := exists_id_of_mem ran first inside
    have promised := promises first id paired kept
    exact ⟨first, id, paired, same, kept, promised, same ▸ sound.bucket_eq_id promised.byId⟩
  intro call member
  obtain ⟨first, id, -, same, -, promised, placed⟩ := bucket call member
  refine ⟨?_, ?_⟩
  · rw [placed]
    exact fun zero => promised.notNil (BitVec.eq_of_toNat_eq zero)
  · intro other inside shares
    obtain ⟨second, otherId, paired, otherSame, kept, -, otherPlaced⟩ := bucket other inside
    rw [placed, otherPlaced] at shares
    have ids := (promised.unique second otherId paired kept).mp (BitVec.eq_of_toNat_eq shares)
    rw [← same, ← otherSame, ids]

end UuidMapCtrl

end Tvntd
