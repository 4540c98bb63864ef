import Mathlib.Data.List.Perm.Subperm
import Tvntd.Ctype.UuidMapRun

/-! # Uuid maps without collisions

While the uuids are in distinct buckets and none is in the first one, every
chain has at most one record and the id of a record is the number of its bucket.
The map then simulates a list of uuids with their first pointers.
-/

namespace Tvntd

open Function

namespace UuidMapCtrl

/-- The number of its bucket is the id of a uuid. -/
def idOf (uuid : Uuid128) : ObjId := BitVec.ofNat 32 (uuidBucket uuid)

private theorem toNat_idOf (uuid : Uuid128) : (idOf uuid).toNat = uuidBucket uuid := by
  have inside := uuidBucket_lt uuid
  rw [mapEntries_eq] at inside
  rw [idOf, BitVec.toNat_ofNat]
  omega

theorem idOf_ne_nil {uuid : Uuid128} (later : uuidBucket uuid ≠ 0) : idOf uuid ≠ objIdNil := by
  intro same
  rw [← toNat_idOf, same] at later
  exact later rfl

private theorem idOf_eq_iff (first second : Uuid128) :
    idOf first = idOf second ↔ uuidBucket first = uuidBucket second := by
  rw [← toNat_idOf, ← toNat_idOf, BitVec.toNat_inj]

/-- Uuids with the pointers they were first mapped with. -/
abbrev Known := List (Uuid128 × Ptr)

def Known.find (known : Known) (uuid : Uuid128) : Option (Uuid128 × Ptr) :=
  known.find? fun k => k.1 = uuid

/-- A known uuid keeps its id, and gives it to calls with its pointer only. -/
def remember (known : Known) (call : MapCall) : Known × ObjId :=
  match known.find call.uuid with
  | some k => (known, if k.2 = call.ptr then idOf call.uuid else objIdNil)
  | none => (known ++ [(call.uuid, call.ptr)], idOf call.uuid)

/-- The uuid is not in the first bucket, and shares its bucket with no other known uuid. -/
def Apart (known : Known) (call : MapCall) : Prop :=
  uuidBucket call.uuid ≠ 0 ∧
    ∀ k ∈ known, uuidBucket k.1 = uuidBucket call.uuid → k.1 = call.uuid

private theorem Known.find_some {known : Known} {uuid : Uuid128} {k : Uuid128 × Ptr}
    (found : known.find uuid = some k) : k ∈ known ∧ k.1 = uuid := by
  have at_ : decide (k.1 = uuid) = true :=
    List.find?_some (p := fun k : Uuid128 × Ptr => decide (k.1 = uuid)) found
  exact ⟨List.mem_of_find?_eq_some found, of_decide_eq_true at_⟩

private theorem Known.find_none {known : Known} {uuid : Uuid128} (missed : known.find uuid = none) :
    ∀ k ∈ known, k.1 ≠ uuid := by
  intro k member same
  exact List.find?_eq_none.mp missed k member (decide_eq_true same)

/-! ## One call -/

/-- The records in use hold the known uuids in order, each alone in its bucket with the number
of the bucket as id. -/
structure Follows (ctrl : UuidMapCtrl) (known : Known) (used : List Nat) : Prop where
  mask : ctrl.uidIdxMask = BitVec.allOnes 32
  sized : ctrl.uidTable.shBkSize = mapEntries
  records : used.map (fun map => ((ctrl.uidMapRecs map).uid128, (ctrl.uidMapRecs map).uidPtr)) =
    known
  ids : ∀ map ∈ used, (ctrl.uidMapRecs map).uidObjId = idOf (ctrl.uidMapRecs map).uid128
  chains : ∀ i, ctrl.uidTable.shBucket i =
    (used.filter fun map => uuidBucket (ctrl.uidMapRecs map).uid128 = i).map .entry
  nodup : (used ++ ctrl.uidFreeMap).Nodup
  whole : (used ++ ctrl.uidFreeMap).length = mapEntries
  buckets : (known.map fun k => uuidBucket k.1).Nodup
  notFirst : ∀ k ∈ known, uuidBucket k.1 ≠ 0

variable {self : UuidMapCtrl} {known : Known} {used : List Nat}

private theorem follows_init (maps : Nat → UuidMap) : (uuidMapStdInit maps).Follows [] [] where
  mask := uuidMapStdInit_mask maps
  sized := rfl
  records := rfl
  ids := fun _ none => (List.not_mem_nil none).elim
  chains := fun _ => rfl
  nodup := List.nodup_range'
  whole := List.length_range'
  buckets := List.nodup_nil
  notFirst := fun _ none => (List.not_mem_nil none).elim

/-- There are fewer uuids than records: the first bucket is empty. -/
theorem Follows.length_lt (follows : self.Follows known used) : used.length < mapEntries := by
  have within : (known.map fun k => uuidBucket k.1) ⊆ List.range' 1 (mapEntries - 1) := by
    intro bucket member
    obtain ⟨k, inside, rfl⟩ := List.mem_map.mp member
    have later := follows.notFirst k inside
    have bounded := uuidBucket_lt k.1
    rw [List.mem_range'_1]
    omega
  have shorter := (follows.buckets.subperm within).length_le
  rw [List.length_map, List.length_range', ← follows.records, List.length_map] at shorter
  exact Nat.lt_of_le_of_lt shorter (by decide)

/-- A record is free before every call. -/
theorem Follows.free (follows : self.Follows known used) :
    ∃ map rest, self.uidFreeMap = map :: rest := by
  have fewer := follows.length_lt
  have whole := follows.whole
  rw [List.length_append] at whole
  exact List.exists_cons_of_length_pos (by omega)

/-- Elements with distinct values are told apart by their values. -/
theorem filter_eq_singleton {α β : Type} [DecidableEq β] (f : α → β) {l : List α} {a : α}
    (nodup : (l.map f).Nodup) (member : a ∈ l) : (l.filter fun b => f b = f a) = [a] := by
  induction l with
  | nil => exact (List.not_mem_nil member).elim
  | cons head rest ih =>
      rw [List.map_cons, List.nodup_cons] at nodup
      rcases List.mem_cons.mp member with rfl | inside
      · have alone : (rest.filter fun b => f b = f a) = [] := by
          rw [List.filter_eq_nil_iff]
          intro b later same
          have shares : f b = f a := of_decide_eq_true same
          exact nodup.1 (shares ▸ List.mem_map_of_mem later)
        rw [List.filter_cons_of_pos (by simp), alone]
      · have differs : f head ≠ f a := fun same => nodup.1 (same ▸ List.mem_map_of_mem inside)
        rw [List.filter_cons_of_neg (by simp [differs]), ih nodup.2 inside]

/-- The chain of a known uuid is its record. -/
theorem Follows.chain_known (follows : self.Follows known used) {map : Nat} (member : map ∈ used) :
    self.uidTable.shBucket (uuidBucket (self.uidMapRecs map).uid128) = [.entry map] := by
  have nodup := follows.buckets
  rw [← follows.records, List.map_map] at nodup
  rw [follows.chains]
  exact congrArg (List.map MapLink.entry) (filter_eq_singleton _ nodup member)

private theorem Follows.mem_known (follows : self.Follows known used) {k : Uuid128 × Ptr}
    (member : k ∈ known) :
    ∃ map ∈ used, (self.uidMapRecs map).uid128 = k.1 ∧ (self.uidMapRecs map).uidPtr = k.2 := by
  rw [← follows.records] at member
  obtain ⟨map, inside, rfl⟩ := List.mem_map.mp member
  exact ⟨map, inside, rfl, rfl⟩

/-- The chain of a uuid that is not known yet is empty. -/
theorem Follows.chain_new (follows : self.Follows known used) {uuid : Uuid128}
    (fresh : ∀ k ∈ known, uuidBucket k.1 ≠ uuidBucket uuid) :
    self.uidTable.shBucket (uuidBucket uuid) = [] := by
  rw [follows.chains, List.map_eq_nil_iff, List.filter_eq_nil_iff]
  intro map inside same
  have shares : uuidBucket (self.uidMapRecs map).uid128 = uuidBucket uuid := of_decide_eq_true same
  have member : ((self.uidMapRecs map).uid128, (self.uidMapRecs map).uidPtr) ∈ known := by
    rw [← follows.records]
    exact List.mem_map_of_mem inside
  exact fresh _ member shares

/-- The record of a known uuid is found, and the new record is freed again. -/
theorem objidAddMapping_known {map rec : Nat} (mask : self.uidIdxMask = BitVec.allOnes 32)
    (sized : self.uidTable.shBkSize = mapEntries) (differs : map ≠ rec)
    (chain : self.uidTable.shBucket (uuidBucket (self.uidMapRecs map).uid128) = [.entry rec])
    (same : (self.uidMapRecs rec).uid128 = (self.uidMapRecs map).uid128)
    (id : (self.uidMapRecs rec).uidObjId = idOf (self.uidMapRecs map).uid128) :
    self.objidAddMapping map =
      some (if (self.uidMapRecs rec).uidPtr = (self.uidMapRecs map).uidPtr then
          (self.uidMapRecs rec).uidObjId else objIdNil, self.objidFreeMapRec map) := by
  have index : BitVec.ofNat 32 (uuidBucket (self.uidMapRecs map).uid128) =
      (self.objidIndex (self.objectOf (.entry rec)).uidObjId).2 := by
    rw [objidIndex_of_allOnes mask]
    exact id.symm
  have equal : self.objidHashCmpFn (.entry rec) (.entry map) = 0 :=
    (objidHashCmpFn_eq_zero self _ _).mpr same
  unfold objidAddMapping
  rw [shashIndex_taken sized, Option.bind_some]
  simp only [objectOf] at index ⊢
  simp only [chain, objidScan, objectOf, ← index, equal, if_true, Option.bind_some, differs,
    if_false]

/-- A record whose chain is empty is linked there. -/
theorem objidAddMapping_new {map : Nat} (mask : self.uidIdxMask = BitVec.allOnes 32)
    (sized : self.uidTable.shBkSize = mapEntries)
    (later : uuidBucket (self.uidMapRecs map).uid128 ≠ 0)
    (chain : self.uidTable.shBucket (uuidBucket (self.uidMapRecs map).uid128) = []) :
    self.objidAddMapping map = some (idOf (self.uidMapRecs map).uid128,
      setRec { self with uidTable := { self.uidTable with
          shBucket := update self.uidTable.shBucket
            (uuidBucket (self.uidMapRecs map).uid128) [.entry map] } }
        map { self.uidMapRecs map with uidObjId := idOf (self.uidMapRecs map).uid128 }) := by
  have nonzero : ¬ BitVec.ofNat 32 (uuidBucket (self.uidMapRecs map).uid128) = 0 :=
    idOf_ne_nil later
  have assigned : self.objidAssignVal (BitVec.ofNat 32 (uuidBucket (self.uidMapRecs map).uid128)) 0 =
      idOf (self.uidMapRecs map).uid128 := by
    unfold objidAssignVal
    rw [mask, BitVec.and_allOnes]
    simp [idOf]
  unfold objidAddMapping
  rw [shashIndex_taken sized, Option.bind_some]
  simp only [objectOf, chain, objidScan, Option.bind_some, ne_eq, nonzero, not_false_eq_true,
    if_true, assigned, idOf_ne_nil later, if_false, List.nil_append]

/-- The records in use before a call are not the record it takes. -/
theorem Follows.fresh (follows : self.Follows known used) {map : Nat} {rest : List Nat}
    (free : self.uidFreeMap = map :: rest) : ∀ other ∈ used, other ≠ map := by
  have nodup := follows.nodup
  rw [free, List.nodup_append] at nodup
  exact fun other member => nodup.2.2 other member map List.mem_cons_self

/-- The uuids and ids of the records in use do not change with another record. -/
theorem Follows.filter_congr (follows : self.Follows known used) {map : Nat} {rest : List Nat}
    (free : self.uidFreeMap = map :: rest) (rec : UuidMap) (i : Nat) :
    (used.filter fun other => uuidBucket (update self.uidMapRecs map rec other).uid128 = i) =
      used.filter fun other => uuidBucket (self.uidMapRecs other).uid128 = i := by
  apply List.filter_congr
  intro other member
  rw [update_of_ne (follows.fresh free other member)]

theorem Follows.records_congr (follows : self.Follows known used) {map : Nat} {rest : List Nat}
    (free : self.uidFreeMap = map :: rest) (rec : UuidMap) :
    (used.map fun other => ((update self.uidMapRecs map rec other).uid128,
      (update self.uidMapRecs map rec other).uidPtr)) = known := by
  rw [← follows.records]
  apply List.map_congr_left
  intro other member
  rw [update_of_ne (follows.fresh free other member)]

/-- A call of a known uuid takes a record and gives it back. -/
theorem Follows.again (follows : self.Follows known used) {map : Nat} {rest : List Nat}
    (free : self.uidFreeMap = map :: rest) (uuid : Uuid128) (ptr : Ptr) :
    ((self.taken map rest uuid ptr).objidFreeMapRec map).Follows known used where
  mask := follows.mask
  sized := follows.sized
  records := follows.records_congr free _
  ids := by
    intro other member
    change ((self.taken map rest uuid ptr).uidMapRecs other).uidObjId =
      idOf ((self.taken map rest uuid ptr).uidMapRecs other).uid128
    rw [self.taken_other (follows.fresh free other member)]
    exact follows.ids other member
  chains := fun i => (follows.chains i).trans
    (congrArg (List.map MapLink.entry) (follows.filter_congr free _ i).symm)
  nodup := by
    have nodup := follows.nodup
    rw [free] at nodup
    exact ((List.perm_append_singleton map rest).append_left used).nodup_iff.mpr nodup
  whole := by
    have whole := follows.whole
    rw [free] at whole
    exact ((List.perm_append_singleton map rest).append_left used).length_eq.trans whole
  buckets := follows.buckets
  notFirst := follows.notFirst

/-- A call of a new uuid that is apart puts its record in use. -/
theorem Follows.add (follows : self.Follows known used) {map : Nat} {rest : List Nat}
    (free : self.uidFreeMap = map :: rest) {uuid : Uuid128} {ptr : Ptr}
    (later : uuidBucket uuid ≠ 0) (fresh : ∀ k ∈ known, uuidBucket k.1 ≠ uuidBucket uuid) :
    Follows { self with
      uidFreeMap := rest
      uidMapRecs := update self.uidMapRecs map ⟨ptr, idOf uuid, uuid⟩
      uidTable := { self.uidTable with
        shBucket := update self.uidTable.shBucket (uuidBucket uuid) [.entry map] } }
      (known ++ [(uuid, ptr)]) (used ++ [map]) where
  mask := follows.mask
  sized := follows.sized
  records := by
    rw [List.map_append, List.map_singleton]
    refine (congrArg (· ++ _) (follows.records_congr free _)).trans ?_
    dsimp only
    rw [update_self]
  ids := by
    intro other member
    dsimp only
    by_cases same : other = map
    · rw [same, update_self]
    · rw [update_of_ne same]
      have inside : other ∈ used := by simpa [same] using member
      exact follows.ids other inside
  chains := by
    intro i
    dsimp only
    rw [List.filter_append, follows.filter_congr free, List.map_append, ← follows.chains]
    by_cases own : i = uuidBucket uuid
    · rw [own, update_self, follows.chain_new fresh, List.filter_cons_of_pos]
      · rfl
      · rw [decide_eq_true_iff, update_self]
    · rw [update_of_ne own, List.filter_cons_of_neg]
      · exact (List.append_nil _).symm
      · rw [decide_eq_true_iff, update_self]
        exact fun same => own same.symm
  nodup := by
    rw [List.append_assoc, List.singleton_append, ← free]
    exact follows.nodup
  whole := by
    rw [List.append_assoc, List.singleton_append, ← free]
    exact follows.whole
  buckets := by
    rw [List.map_append, List.map_singleton]
    refine List.nodup_append_comm.mp (List.nodup_cons.mpr ⟨?_, follows.buckets⟩)
    intro member
    obtain ⟨k, inside, same⟩ := List.mem_map.mp member
    exact fresh k inside same
  notFirst := by
    intro k member
    rcases List.mem_append.mp member with inside | last
    · exact follows.notFirst k inside
    · rw [List.mem_singleton.mp last]
      exact later

/-- **One call** of a uuid that is apart does not abort, gives the remembered id and remembers
the uuid. -/
theorem Follows.step (follows : self.Follows known used) {call : MapCall}
    (apart : Apart known call) :
    ∃ next after, self.step call = some (next, (remember known call).2) ∧
      next.Follows (remember known call).1 after := by
  obtain ⟨map, rest, free⟩ := follows.free
  have own := self.taken_self map rest call.uuid call.ptr
  have mapped := objidMapUuid128_eq free call.uuid call.ptr
  have mask : (self.taken map rest call.uuid call.ptr).uidIdxMask = BitVec.allOnes 32 :=
    follows.mask
  cases found : known.find call.uuid with
  | some k =>
      obtain ⟨member, same⟩ := Known.find_some found
      obtain ⟨rec, inside, uuid, ptr⟩ := follows.mem_known member
      have kept := self.taken_other (follows.fresh free rec inside) rest call.uuid call.ptr
      have chain := follows.chain_known inside
      have id := follows.ids rec inside
      rw [uuid, same] at chain id
      have added := objidAddMapping_known mask follows.sized
        (follows.fresh free rec inside).symm (by rw [own]; exact chain)
        (by rw [own, kept]; exact uuid.trans same) (by rw [own, kept]; exact id)
      rw [own, kept, id, ptr] at added
      rw [remember, found, step_eq, mapped, added]
      exact ⟨_, used, rfl, follows.again free call.uuid call.ptr⟩
  | none =>
      have fresh : ∀ k ∈ known, uuidBucket k.1 ≠ uuidBucket call.uuid :=
        fun k member shares => Known.find_none found k member (apart.2 k member shares)
      have chain := follows.chain_new fresh
      have added := objidAddMapping_new mask follows.sized
        (by rw [own]; exact apart.1) (by rw [own]; exact chain)
      rw [own] at added
      have same : setRec { self.taken map rest call.uuid call.ptr with
            uidTable := { self.uidTable with
              shBucket := update self.uidTable.shBucket (uuidBucket call.uuid)
                [.entry map] } } map ⟨call.ptr, idOf call.uuid, call.uuid⟩ = { self with
          uidFreeMap := rest
          uidMapRecs := update self.uidMapRecs map ⟨call.ptr, idOf call.uuid, call.uuid⟩
          uidTable := { self.uidTable with
            shBucket := update self.uidTable.shBucket (uuidBucket call.uuid)
              [.entry map] } } := by
        unfold setRec taken setRec
        rw [update_idem]
      rw [remember, found, step_eq, mapped, added]
      exact ⟨_, used ++ [map], congrArg (fun next => some (next, idOf call.uuid)) same,
        follows.add free apart.1 fresh⟩

/-! ## Sequences of calls -/

theorem simulates : machine.Simulates remember (fun _ _ => True) Apart
    (fun ctrl known => ∃ used, ctrl.Follows known used) := by
  rintro ctrl known call ⟨used, follows⟩ apart -
  obtain ⟨next, after, stepped, still⟩ := follows.step apart
  exact ⟨next, stepped, after, still⟩

private theorem Known.find_append (known : Known) (k : Uuid128 × Ptr) (uuid : Uuid128) :
    Known.find (known ++ [k]) uuid = (known.find uuid).or
      (if k.1 = uuid then some k else none) := by
  unfold Known.find
  rw [List.find?_append, List.find?_singleton]
  simp only [decide_eq_true_eq]

private theorem remember_find (known : Known) (call : MapCall) (uuid : Uuid128) :
    (remember known call).1.find uuid =
      (known.find uuid).or (if call.uuid = uuid then some (uuid, call.ptr) else none) := by
  unfold remember
  cases found : known.find call.uuid with
  | some k =>
      by_cases same : call.uuid = uuid
      · rw [← same, found]
        rfl
      · rw [if_neg same, Option.or_none]
  | none =>
      rw [Known.find_append]
      by_cases same : call.uuid = uuid
      · rw [if_pos same, if_pos same, same]
      · rw [if_neg same, if_neg same]

/-- After a sequence the known pointer of a uuid is the one it was first mapped with. -/
theorem find_specRun (calls : List MapCall) : ∀ (known : Known) (uuid : Uuid128),
    (Machine.specRun remember known calls).1.find uuid =
      (known.find uuid).or ((firstPtr calls uuid).map fun ptr => (uuid, ptr)) := by
  induction calls with
  | nil => exact fun known uuid => (Option.or_none).symm
  | cons call rest ih =>
      intro known uuid
      change (Machine.specRun remember (remember known call).1 rest).1.find uuid = _
      rw [ih, remember_find, Option.or_assoc]
      congr 1
      unfold firstPtr
      by_cases same : call.uuid = uuid
      · rw [if_pos same, List.find?_cons_of_pos (by exact decide_eq_true same)]
        rfl
      · rw [if_neg same, List.find?_cons_of_neg (by simpa using same)]
        rfl

/-- A call with the pointer known in the end gets the id of its uuid. -/
theorem id_of_specRun (calls : List MapCall) : ∀ (known : Known) {call : MapCall} {id : ObjId},
    (call, id) ∈ calls.zip (Machine.specRun remember known calls).2 →
      (Machine.specRun remember known calls).1.find call.uuid = some (call.uuid, call.ptr) →
        id = idOf call.uuid := by
  induction calls with
  | nil => exact fun known call id none => (List.not_mem_nil none).elim
  | cons head rest ih =>
      intro known call id member found
      rcases List.mem_cons.mp member with same | inside
      · cases same
        rw [find_specRun, firstPtr, List.find?_cons_of_pos (by exact decide_eq_true rfl)] at found
        unfold remember
        cases before : known.find head.uuid with
        | none => rfl
        | some k =>
            rw [before, Option.some_or, Option.some.injEq] at found
            subst found
            exact if_pos rfl
      · exact ih (remember known head).1 inside found

/-- Every call of a spread sequence is apart from the uuids before it. -/
theorem apart_of_spread {calls : List MapCall} (spread : Spread calls) : ∀ {known : Known},
    (∀ k ∈ known, ∀ call ∈ calls, uuidBucket k.1 = uuidBucket call.uuid → k.1 = call.uuid) →
      Machine.SpecMeets remember Apart known calls := by
  induction calls with
  | nil => exact fun _ => trivial
  | cons call rest ih =>
      intro known apart
      refine ⟨⟨(spread call List.mem_cons_self).1, ?_⟩, ih ?_ ?_⟩
      · exact fun k member => apart k member call List.mem_cons_self
      · intro later member
        obtain ⟨notFirst, alone⟩ := spread later (List.mem_cons_of_mem _ member)
        exact ⟨notFirst, fun other inside => alone other (List.mem_cons_of_mem _ inside)⟩
      · intro k member later inside
        have remembered : k ∈ known ∨ k = (call.uuid, call.ptr) := by
          unfold remember at member
          cases found : known.find call.uuid with
          | some k => exact .inl (by rwa [found] at member)
          | none =>
              rw [found] at member
              exact (List.mem_append.mp member).imp_right List.mem_singleton.mp
        rcases remembered with before | rfl
        · exact apart k before later (List.mem_cons_of_mem _ inside)
        · exact (spread later (List.mem_cons_of_mem _ inside)).2 call List.mem_cons_self

/-! ## Lookups -/

private theorem Follows.lookup_id (follows : self.Follows known used) {uuid : Uuid128} {ptr : Ptr}
    (member : (uuid, ptr) ∈ known) (uuid64 : BitVec 64) (uuid128 : Uuid128) :
    self.objidUuidLookup (idOf uuid) (some uuid64) (some uuid128) =
      some (ptr, some (uuidOut uuid).1, some (uuidOut uuid).2) := by
  obtain ⟨map, inside, same, pointer⟩ := follows.mem_known member
  have chain := follows.chain_known inside
  have id := follows.ids map inside
  rw [same] at chain id
  rw [objidUuidLookup_eq follows.mask, toNat_idOf, follows.sized, if_pos (uuidBucket_lt uuid), chain,
    List.find?_cons_of_pos (by exact decide_eq_true id)]
  simp only [objectOf, same, pointer]

theorem Follows.lookup_uuid128 (follows : self.Follows known used) {uuid : Uuid128} {ptr : Ptr}
    (member : (uuid, ptr) ∈ known) : self.uuid128ObjidLookup uuid = some (ptr, idOf uuid) := by
  obtain ⟨map, inside, same, pointer⟩ := follows.mem_known member
  have chain := follows.chain_known inside
  have id := follows.ids map inside
  rw [same] at chain id
  have index : BitVec.ofNat 32 (uuidBucket uuid) = (self.objidIndex (idOf uuid)).2 :=
    (objidIndex_of_allOnes follows.mask _).symm
  have equal : self.objidHashCmpFn (.entry map) (.stack ⟨nullptr, objIdNil, uuid⟩) = 0 :=
    (objidHashCmpFn_eq_zero self _ _).mpr same
  unfold uuid128ObjidLookup
  dsimp only
  rw [shashIndex_taken follows.sized, Option.bind_some]
  simp only [objectOf, chain, List.isEmpty_cons, objidScan, equal, id, if_true, if_pos index,
    Option.map_some, pointer, Bool.false_eq_true, if_false]

/-- **Exactly the spread sequences are mapped correctly.** -/
theorem correct_iff_spread (maps : Nat → UuidMap) (calls : List MapCall) :
    Correct maps calls ↔ Spread calls := by
  constructor
  · exact spread_of_correct
  · intro spread
    have apart : Machine.SpecMeets remember Apart [] calls :=
      apart_of_spread spread fun _ none => (List.not_mem_nil none).elim
    obtain ⟨final, ran, used, follows⟩ := simulates.run ⟨[], follows_init maps⟩ apart
      (Machine.meets_of_forall (fun _ _ => trivial) _ _)
    refine ⟨final, _, ran, ?_⟩
    have given : ∀ call id, (call, id) ∈ calls.zip (Machine.specRun remember [] calls).2 →
        firstPtr calls call.uuid = some call.ptr →
          id = idOf call.uuid ∧ (call.uuid, call.ptr) ∈ (Machine.specRun remember [] calls).1 := by
      intro call id paired first
      have found := find_specRun calls [] call.uuid
      rw [first] at found
      exact ⟨id_of_specRun calls [] paired found, (Known.find_some found).1⟩
    intro call id paired first
    obtain ⟨rfl, member⟩ := given call id paired first
    have inside : call ∈ calls := (List.of_mem_zip paired).1
    refine ⟨idOf_ne_nil (spread call inside).1, ?_, follows.lookup_id member,
      follows.lookup_uuid128 member, ?_⟩
    · intro other otherId otherPaired otherFirst
      obtain ⟨rfl, -⟩ := given other otherId otherPaired otherFirst
      rw [idOf_eq_iff]
      constructor
      · exact (spread call inside).2 other (List.of_mem_zip otherPaired).1
      · exact congrArg uuidBucket
    · intro narrow
      have same : (⟨call.uuid.uuidLo, invalUuid⟩ : Uuid128) = call.uuid := by
        rw [← narrow]
      rw [uuid64ObjidLookup, same]
      exact follows.lookup_uuid128 member

/-- Two distinct uuids, the first of them in the first bucket. -/
def collidingCalls : List MapCall := [.map64 65536 1, .map64 64 2]

def blankMaps : Nat → UuidMap := fun _ => ⟨nullptr, objIdNil, .nil⟩

private theorem collidingCalls_ids :
    (machine.run (uuidMapStdInit blankMaps) collidingCalls).map Prod.snd = some [64, 64] := by
  have mask : idxMaskLoop (1 <<< uuidMapRecShft) = BitVec.allOnes 32 :=
    idxMaskLoop_allOnes (by decide)
  rw [uuidMapStdInit, objidInitCtrl, mask]
  decide +kernel

/-- Distinct uuids that are not nil get one id. -/
theorem collidingCalls_not_correct : collidingCalls.length < mapEntries ∧
    (collidingCalls.map MapCall.uuid).Nodup ∧ Uuid128.nil ∉ collidingCalls.map MapCall.uuid ∧
      ¬ Correct blankMaps collidingCalls := by
  refine ⟨by decide, by decide, by decide, ?_⟩
  rintro ⟨final, ids, ran, promises⟩
  have given := collidingCalls_ids
  rw [ran, Option.map_some, Option.some.injEq] at given
  dsimp only at given
  subst given
  have promised := promises (.map64 65536 1) 64 List.mem_cons_self rfl
  have same := (promised.unique (.map64 64 2) 64 (by simp [collidingCalls]) rfl).mp rfl
  exact absurd same (by decide)

end UuidMapCtrl

end Tvntd
