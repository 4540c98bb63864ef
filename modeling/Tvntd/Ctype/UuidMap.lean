import Mathlib.Data.List.Basic
import Mathlib.Logic.Function.Basic
import Tvntd.Ctype.Shash
import Tvntd.Cpptype.Object

/-! # The map from uuids to 32-bit ids

The model of `common/ctype/uuid-map.c`. Records live in one array and are numbers
here; a record is in the free list or in one chain of the hash table. `none` is a
failed `assert` or `verify`, or a read of something not set.
-/

namespace Tvntd

structure Uuid128 where
  uuidLo : BitVec 64
  uuidHi : BitVec 64
  deriving DecidableEq

/-- `INVAL_UUID` -/
def invalUuid : BitVec 64 := 0

def Uuid128.nil : Uuid128 := ⟨invalUuid, invalUuid⟩

abbrev ObjId := BitVec 32

/-- `OBJ_ID_NIL` -/
def objIdNil : ObjId := 0

/-- `UUID_REC_COLLISION_SHFT` -/
def uuidRecCollisionShft : Nat := 6

/-- `uuid_map_t` without its link. -/
structure UuidMap where
  uidPtr : Ptr
  uidObjId : ObjId
  uid128 : Uuid128

/-- The address of a `uid_link`: in a record of the array, or in a record on the stack of a
lookup. -/
inductive MapLink where
  | entry (map : Nat)
  | stack (rec : UuidMap)

/-- `uuid_map_ctrl_t` without its mutexes. -/
structure UuidMapCtrl where
  uidIdxMask : BitVec 32
  uidColMask : BitVec 32
  uidMapEntries : Nat
  uidFreeMap : List Nat
  uidMapRecs : Nat → UuidMap
  uidTable : Shash MapLink

/-- The hash of a uuid by `objid_hash_fn`, before the size is known. -/
def objidHash (uuid : Uuid128) : BitVec 32 :=
  let hash := uuid.uuidLo.setWidth 32 ^^^ (uuid.uuidLo >>> 32).setWidth 32
  if uuid.uuidHi ≠ 0 then
    hash ^^^ uuid.uuidHi.setWidth 32 ^^^ (uuid.uuidHi >>> 32).setWidth 32
  else hash

namespace UuidMapCtrl

/-- `object_of(uuid_map_t, uid_link, link)` -/
def objectOf (self : UuidMapCtrl) : MapLink → UuidMap
  | .entry map => self.uidMapRecs map
  | .stack rec => rec

/-- The collision and the index of an id. -/
def objidIndex (self : UuidMapCtrl) (id : ObjId) : BitVec 32 × BitVec 32 :=
  (id >>> uuidRecCollisionShft, id &&& self.uidIdxMask)

def objidAssignVal (self : UuidMapCtrl) (idx collision : BitVec 32) : ObjId :=
  (idx &&& self.uidIdxMask) ||| (collision <<< uuidRecCollisionShft)

def objidHashFn (self : UuidMapCtrl) (size : Nat) (entry : MapLink) : Nat :=
  (objidHash (self.objectOf entry).uid128).toNat % size

def objidHashCmpFn (self : UuidMapCtrl) (e1 e2 : MapLink) : Int :=
  if (self.objectOf e1).uid128 = (self.objectOf e2).uid128 then 0 else 1

def objidIdCmpFn (self : UuidMapCtrl) (e1 e2 : MapLink) : Int :=
  if (self.objectOf e1).uidObjId = (self.objectOf e2).uidObjId then 0 else 1

def uidTableFn (self : UuidMapCtrl) : ShashFn MapLink where
  shHashFn := self.objidHashFn
  shCmpFn := self.objidHashCmpFn

/-- The loop over `map_entries` that builds the index mask. The machine takes the count of the
shift modulo the width of an `int`. -/
def idxMaskLoop : Nat → BitVec 32
  | 0 => 0
  | i + 1 => idxMaskLoop i ||| (1 <<< (i % 32))

def objidInitCtrl (mapEntries : Nat) (maps : Nat → UuidMap) : UuidMapCtrl where
  uidIdxMask := idxMaskLoop mapEntries
  uidColMask := 0 ||| ~~~ (idxMaskLoop mapEntries)
  uidMapEntries := mapEntries
  uidFreeMap := List.range' 0 mapEntries
  uidMapRecs := maps
  uidTable := shashInit mapEntries

/-- `uuid_map_rec_shft` of `gl_uuid_map_ctrlvec` -/
def uuidMapRecShft : Nat := 16

/-- `uuid_map_std_init`, over what the allocated records happen to contain. -/
def uuidMapStdInit (maps : Nat → UuidMap) : UuidMapCtrl := objidInitCtrl (1 <<< uuidMapRecShft) maps

def objidAllocMapRec (self : UuidMapCtrl) : Option (Nat × UuidMapCtrl) :=
  match self.uidFreeMap with
  | [] => none
  | map :: rest => some (map, { self with uidFreeMap := rest })

def objidFreeMapRec (self : UuidMapCtrl) (map : Nat) : UuidMapCtrl :=
  { self with uidFreeMap := self.uidFreeMap ++ [map] }

/-- The loop over one chain in `objid_add_mapping` and `uuid128_objid_lookup`: the record with
the uuid, and the collision counter. -/
def objidScan (self : UuidMapCtrl) (idx : BitVec 32) (find : MapLink) :
    List MapLink → BitVec 32 → Option (Option MapLink × BitVec 32)
  | [], col => some (none, col)
  | cur :: rest, col =>
      if idx = (self.objidIndex (self.objectOf cur).uidObjId).2 then
        if self.objidHashCmpFn cur find = 0 then some (some cur, col + 1)
        else objidScan self idx find rest (col + 1)
      else none

def setRec (self : UuidMapCtrl) (map : Nat) (rec : UuidMap) : UuidMapCtrl :=
  { self with uidMapRecs := Function.update self.uidMapRecs map rec }

def objidAddMapping (self : UuidMapCtrl) (map : Nat) : Option (ObjId × UuidMapCtrl) :=
  (shashIndex self.uidTableFn self.uidTable (.entry map)).bind fun index =>
    let idx := BitVec.ofNat 32 index
    -- The obj id 0 can't be assigned.
    let col : BitVec 32 := if idx ≠ 0 then 0 else 1
    let chain := self.uidTable.shBucket index
    (objidScan self idx (.entry map) chain col).bind fun (rec, col) =>
      match rec with
      | some (.entry rec) =>
          if map = rec then none
          else
            let ptr := (self.uidMapRecs map).uidPtr
            let found := self.uidMapRecs rec
            some (if found.uidPtr = ptr then found.uidObjId else objIdNil,
              self.objidFreeMapRec map)
      | some (.stack _) => none
      | none =>
          let id := self.objidAssignVal idx col
          let linked := { self with uidTable := { self.uidTable with
            shBucket := Function.update self.uidTable.shBucket index
              (chain ++ [MapLink.entry map]) } }
          if id = objIdNil then none
          else some (id, linked.setRec map { self.uidMapRecs map with uidObjId := id })

def objidMapUuid128 (self : UuidMapCtrl) (uuid : Uuid128) (ptr : Ptr) :
    Option (ObjId × UuidMapCtrl) :=
  self.objidAllocMapRec.bind fun (map, taken) =>
    (taken.setRec map ⟨ptr, (taken.uidMapRecs map).uidObjId, uuid⟩).objidAddMapping map

def objidMapUuid64 (self : UuidMapCtrl) (uuid : BitVec 64) (ptr : Ptr) :
    Option (ObjId × UuidMapCtrl) :=
  self.objidAllocMapRec.bind fun (map, taken) =>
    (taken.setRec map ⟨ptr, (taken.uidMapRecs map).uidObjId, ⟨uuid, invalUuid⟩⟩).objidAddMapping map

/-- `objid_uuid_lookup`: the pointer, and what `uuid64` and `uuid128` point to afterwards; `none`
in place of a content is a null argument. An id that is not found leaves `uuid128` as it was. -/
def objidUuidLookup (self : UuidMapCtrl) (id : ObjId) (uuid64 : Option (BitVec 64))
    (uuid128 : Option Uuid128) : Option (Ptr × Option (BitVec 64) × Option Uuid128) :=
  let idx := (self.objidIndex id).2.toNat
  if idx < self.uidTable.shBkSize then
    let probe : MapLink := .stack ⟨nullptr, id, .nil⟩
    match (slinkFind self.objidIdCmpFn probe false (self.uidTable.shBucket idx)).1 with
    | some found =>
        let map := self.objectOf found
        if map.uid128.uuidHi = invalUuid then
          uuid64.map fun _ => (map.uidPtr, some map.uid128.uuidLo, uuid128.map fun _ => .nil)
        else
          uuid128.map fun _ => (map.uidPtr, uuid64.map fun _ => invalUuid, some map.uid128)
    | none => some (nullptr, uuid64.map fun _ => invalUuid, uuid128)
  else none

/-- `uuid128_objid_lookup`: the pointer and the id. In an empty chain `rec` is read before it
is set. -/
def uuid128ObjidLookup (self : UuidMapCtrl) (uuid : Uuid128) : Option (Ptr × ObjId) :=
  let find : MapLink := .stack ⟨nullptr, objIdNil, uuid⟩
  (shashIndex self.uidTableFn self.uidTable find).bind fun index =>
    let chain := self.uidTable.shBucket index
    if chain.isEmpty then none
    else
      (objidScan self (BitVec.ofNat 32 index) find chain 0).map fun (rec, _) =>
        match rec with
        | none => (nullptr, objIdNil)
        | some rec => ((self.objectOf rec).uidPtr, (self.objectOf rec).uidObjId)

def uuid64ObjidLookup (self : UuidMapCtrl) (uuid : BitVec 64) : Option (Ptr × ObjId) :=
  self.uuid128ObjidLookup ⟨uuid, invalUuid⟩

end UuidMapCtrl

end Tvntd
