import Tvntd.Ctype.UuidMapSpread

/-! # Where the records of the uuid map are

A mapping call takes a record from the free list before it knows whether it needs
one. Between two calls every record is free or in one chain. A walk along a chain
asserts of each record that its id is the number of the bucket, and the lookup of
a uuid reads what it found although an empty chain sets nothing.
-/

namespace Tvntd

open Function

namespace UuidMapCtrl

variable {self next : UuidMapCtrl}

/-! ## Walking a chain -/

def ofUuid (self : UuidMapCtrl) (uuid : Uuid128) (link : MapLink) : Bool :=
  (self.objectOf link).uid128 = uuid

/-- The links a walk for a uuid looks at: up to the first with the uuid. -/
def visited (self : UuidMapCtrl) (uuid : Uuid128) : List MapLink → List MapLink
  | [] => []
  | cur :: rest =>
      if self.ofUuid uuid cur then [cur] else cur :: self.visited uuid rest

/-- Every link has the number as its id. -/
def Numbered (self : UuidMapCtrl) (idx : BitVec 32) (links : List MapLink) : Prop :=
  ∀ link ∈ links, (self.objectOf link).uidObjId = idx

instance (self : UuidMapCtrl) (idx : BitVec 32) (links : List MapLink) :
    Decidable (self.Numbered idx links) :=
  inferInstanceAs (Decidable (∀ link ∈ links, _))

private theorem numbered_cons (self : UuidMapCtrl) (idx : BitVec 32) (cur : MapLink)
    (rest : List MapLink) :
    self.Numbered idx (cur :: rest) ↔
      (self.objectOf cur).uidObjId = idx ∧ self.Numbered idx rest := List.forall_mem_cons

private theorem objidScan_eq (mask : self.uidIdxMask = BitVec.allOnes 32) (idx : BitVec 32)
    (find : MapLink) (chain : List MapLink) : ∀ col : BitVec 32,
    self.objidScan idx find chain col =
      if self.Numbered idx (self.visited (self.objectOf find).uid128 chain) then
        some (chain.find? (self.ofUuid (self.objectOf find).uid128),
          col + BitVec.ofNat 32 (self.visited (self.objectOf find).uid128 chain).length)
      else none := by
  induction chain with
  | nil =>
      intro col
      have none : self.Numbered idx [] := List.forall_mem_nil _
      simp [objidScan, visited, none]
  | cons cur rest ih =>
      intro col
      rw [objidScan, objidIndex_of_allOnes mask]
      by_cases numbered : (self.objectOf cur).uidObjId = idx
      · rw [if_pos numbered.symm]
        by_cases own : self.ofUuid (self.objectOf find).uid128 cur
        · have equal : self.objidHashCmpFn cur find = 0 :=
            (objidHashCmpFn_eq_zero self cur find).mpr (of_decide_eq_true own)
          have all : self.Numbered idx [cur] := by simp [Numbered, numbered]
          simp [equal, visited, own, all]
        · have differs : self.objidHashCmpFn cur find ≠ 0 := fun equal =>
            own (decide_eq_true ((objidHashCmpFn_eq_zero self cur find).mp equal))
          rw [if_neg differs, ih]
          simp only [visited, own, Bool.false_eq_true, if_false, numbered_cons, numbered,
            true_and, List.find?_cons, List.length_cons, BitVec.ofNat_add]
          rw [BitVec.add_assoc, BitVec.add_comm 1]
          rfl
      · rw [if_neg (Ne.symm numbered), if_neg]
        intro all
        apply numbered
        apply all
        unfold visited
        split <;> exact List.mem_cons_self

/-- A walk sees only the records of the chain. -/
theorem visited_congr {other : UuidMapCtrl} {uuid : Uuid128} {chain : List MapLink}
    (same : ∀ link ∈ chain, other.objectOf link = self.objectOf link) :
    other.visited uuid chain = self.visited uuid chain ∧
      chain.find? (other.ofUuid uuid) = chain.find? (self.ofUuid uuid) := by
  induction chain with
  | nil => exact ⟨rfl, rfl⟩
  | cons cur rest ih =>
      obtain ⟨visits, finds⟩ := ih fun link inside => same link (List.mem_cons_of_mem _ inside)
      have here : other.ofUuid uuid cur = self.ofUuid uuid cur := by
        unfold ofUuid
        rw [same cur List.mem_cons_self]
      exact ⟨by rw [visited, visited, here, visits], by rw [List.find?_cons, List.find?_cons, here, finds]⟩

private theorem mem_of_mem_visited {uuid : Uuid128} {chain : List MapLink} {link : MapLink}
    (inside : link ∈ self.visited uuid chain) : link ∈ chain := by
  induction chain with
  | nil => exact inside
  | cons cur rest ih =>
      unfold visited at inside
      split at inside
      · exact List.mem_cons.mpr (Or.inl (List.mem_singleton.mp inside))
      · rcases List.mem_cons.mp inside with here | later
        · exact List.mem_cons.mpr (Or.inl here)
        · exact List.mem_cons_of_mem _ (ih later)

/-! ## One call -/

def chainOf (self : UuidMapCtrl) (uuid : Uuid128) : List MapLink :=
  self.uidTable.shBucket (uuidBucket uuid)

/-- The record that a walk for a uuid finds. -/
def recordOf (self : UuidMapCtrl) (uuid : Uuid128) : Option MapLink :=
  (self.chainOf uuid).find? (self.ofUuid uuid)

/-- A walk for the uuid fails no assertion. -/
def Walks (self : UuidMapCtrl) (uuid : Uuid128) : Prop :=
  self.Numbered (idOf uuid) (self.visited uuid (self.chainOf uuid))

instance (self : UuidMapCtrl) (uuid : Uuid128) : Decidable (self.Walks uuid) :=
  inferInstanceAs (Decidable (self.Numbered _ _))

/-- A mapping that found its uuid: the record it took is the last free one. -/
def returned (self : UuidMapCtrl) (map : Nat) (rest : List Nat) (uuid : Uuid128) (ptr : Ptr) :
    UuidMapCtrl :=
  { self.taken map rest uuid ptr with uidFreeMap := rest ++ [map] }

/-- A mapping that did not: its record is the last of the chain. -/
def linked (self : UuidMapCtrl) (map : Nat) (rest : List Nat) (uuid : Uuid128) (ptr : Ptr)
    (id : ObjId) : UuidMapCtrl :=
  UuidMapCtrl.setRec { self.taken map rest uuid ptr with
    uidTable := { self.uidTable with
      shBucket := update self.uidTable.shBucket (uuidBucket uuid)
        (self.chainOf uuid ++ [.entry map]) } } map ⟨ptr, id, uuid⟩

private theorem Sound.taken_object (sound : self.Sound) {map : Nat} {rest : List Nat}
    (free : self.uidFreeMap = map :: rest) (uuid : Uuid128) (ptr : Ptr) (i : Nat) :
    ∀ link ∈ self.uidTable.shBucket i,
      (self.taken map rest uuid ptr).objectOf link = self.objectOf link := by
  intro link inside
  obtain ⟨other, rfl, notFree, -⟩ := sound.chained i link inside
  have differs : other ≠ map := by
    rintro rfl
    rw [free] at notFree
    exact notFree List.mem_cons_self
  exact self.taken_other differs rest uuid ptr

/-- The collision counter at the end of a walk that found nothing. -/
def colAfter (self : UuidMapCtrl) (uuid : Uuid128) : BitVec 32 :=
  (if idOf uuid ≠ 0 then 0 else 1) +
    BitVec.ofNat 32 (self.visited uuid (self.chainOf uuid)).length

/-- What a mapping does with the record it took. -/
theorem Sound.addMapping_eq (sound : self.Sound) {map : Nat} {rest : List Nat}
    (free : self.uidFreeMap = map :: rest) (uuid : Uuid128) (ptr : Ptr) :
    (self.taken map rest uuid ptr).objidAddMapping map =
      if self.Walks uuid then
        match self.recordOf uuid with
        | some found =>
            some (if (self.objectOf found).uidPtr = ptr then (self.objectOf found).uidObjId
              else objIdNil, self.returned map rest uuid ptr)
        | none =>
            let id := self.objidAssignVal (idOf uuid) (self.colAfter uuid)
            if id = objIdNil then none else some (id, self.linked map rest uuid ptr id)
      else none := by
  obtain ⟨still, absent⟩ := sound.taken free uuid ptr
  have own : (self.taken map rest uuid ptr).objectOf (.entry map) =
      ⟨ptr, (self.uidMapRecs map).uidObjId, uuid⟩ := self.taken_self map rest uuid ptr
  have same := sound.taken_object free uuid ptr (uuidBucket uuid)
  obtain ⟨visits, finds⟩ := @visited_congr self _ uuid _ same
  have walks : (self.taken map rest uuid ptr).Numbered (idOf uuid)
      ((self.taken map rest uuid ptr).visited uuid (self.chainOf uuid)) ↔ self.Walks uuid := by
    rw [Walks, chainOf, visits]
    refine forall₂_congr fun link inside => ?_
    rw [same link (mem_of_mem_visited inside)]
  rw [objidAddMapping, shashIndex_taken still.sized, Option.bind_some, own]
  change Option.bind (objidScan _ (idOf uuid) (.entry map) (self.chainOf uuid)
    (if idOf uuid ≠ 0 then 0 else 1)) _ = _
  rw [objidScan_eq still.mask, own]
  simp only [walks]
  by_cases walk : self.Walks uuid
  · rw [if_pos walk, if_pos walk, Option.bind_some]
    dsimp only
    rw [show (self.chainOf uuid).find? ((self.taken map rest uuid ptr).ofUuid uuid) =
      self.recordOf uuid from finds]
    cases found : self.recordOf uuid with
    | none =>
        dsimp only
        have visit : (self.taken map rest uuid ptr).visited uuid (self.chainOf uuid) =
          self.visited uuid (self.chainOf uuid) := visits
        rw [visit, show (if idOf uuid ≠ 0 then (0 : BitVec 32) else 1) +
          BitVec.ofNat 32 (self.visited uuid (self.chainOf uuid)).length =
            self.colAfter uuid from rfl,
          self.taken_self map rest uuid ptr]
        rfl
    | some link =>
        have member := List.mem_of_find?_eq_some found
        obtain ⟨other, rfl, notFree, -⟩ := sound.chained _ _ member
        rw [free] at notFree
        have differs : map ≠ other := fun same => notFree (same ▸ List.mem_cons_self)
        have record : (self.taken map rest uuid ptr).uidMapRecs other = self.uidMapRecs other :=
          same _ member
        simp only [if_neg differs, record, self.taken_self map rest uuid ptr]
        rfl
  · rw [if_neg walk, if_neg walk]
    rfl

/-- A call takes the first free record, and either gives it back or links it. -/
theorem Sound.step_eq_some (sound : self.Sound) {call : MapCall} {id : ObjId}
    (stepped : self.step call = some (next, id)) :
    ∃ map rest, self.uidFreeMap = map :: rest ∧ self.Walks call.uuid ∧
      ((∃ found, self.recordOf call.uuid = some found ∧
          next = self.returned map rest call.uuid call.ptr ∧
            id = if (self.objectOf found).uidPtr = call.ptr then (self.objectOf found).uidObjId
              else objIdNil) ∨
        (self.recordOf call.uuid = none ∧
          next = self.linked map rest call.uuid call.ptr id)) := by
  rw [step_eq] at stepped
  obtain ⟨⟨given, after⟩, mapped, same⟩ := Option.map_eq_some_iff.mp stepped
  cases same
  cases free : self.uidFreeMap with
  | nil =>
      unfold objidMapUuid128 objidAllocMapRec at mapped
      rw [free] at mapped
      cases mapped
  | cons map rest =>
      rw [objidMapUuid128_eq free, sound.addMapping_eq free] at mapped
      split at mapped
      case isFalse => cases mapped
      case isTrue walks =>
        refine ⟨map, rest, rfl, walks, ?_⟩
        cases found : self.recordOf call.uuid with
        | some link =>
            rw [found] at mapped
            cases mapped
            exact Or.inl ⟨link, rfl, rfl, rfl⟩
        | none =>
            rw [found] at mapped
            dsimp only at mapped
            split at mapped
            · cases mapped
            · cases mapped
              exact Or.inr ⟨rfl, rfl⟩

/-! ## The places of the records -/

/-- Every record is free once, or is once in one chain. -/
structure InOnePlace (ctrl : UuidMapCtrl) : Prop where
  free : ctrl.uidFreeMap.Nodup ∧ ∀ map ∈ ctrl.uidFreeMap, map < mapEntries
  chain : ∀ i, (ctrl.uidTable.shBucket i).Nodup
  entry : ∀ i link, link ∈ ctrl.uidTable.shBucket i → ∃ map < mapEntries, link = .entry map
  apart : ∀ i map, .entry map ∈ ctrl.uidTable.shBucket i → map ∉ ctrl.uidFreeMap
  single : ∀ i j map, .entry map ∈ ctrl.uidTable.shBucket i →
    .entry map ∈ ctrl.uidTable.shBucket j → i = j
  whole : ∀ map < mapEntries, map ∈ ctrl.uidFreeMap ∨ ∃ i, .entry map ∈ ctrl.uidTable.shBucket i

private theorem inOnePlace_init (maps : Nat → UuidMap) : (uuidMapStdInit maps).InOnePlace where
  free := ⟨List.nodup_range', fun map inside => by
    obtain ⟨i, small, rfl⟩ := List.mem_range'.mp inside
    rw [Nat.zero_add, Nat.one_mul]
    exact small⟩
  chain := fun _ => List.nodup_nil
  entry := fun _ _ none => absurd none List.not_mem_nil
  apart := fun _ _ none => absurd none List.not_mem_nil
  single := fun _ _ _ none => absurd none List.not_mem_nil
  whole := fun map small => Or.inl (List.mem_range'_1.mpr ⟨Nat.zero_le _, by
    rw [Nat.zero_add]
    exact small⟩)

theorem InOnePlace.returned (places : self.InOnePlace) {map : Nat} {rest : List Nat}
    (free : self.uidFreeMap = map :: rest) (uuid : Uuid128) (ptr : Ptr) :
    (self.returned map rest uuid ptr).InOnePlace := by
  have perm : (rest ++ [map]).Perm self.uidFreeMap := free ▸ List.perm_append_singleton map rest
  have same : ∀ other, other ∈ rest ++ [map] ↔ other ∈ self.uidFreeMap :=
    fun other => perm.mem_iff
  constructor
  case free =>
    exact ⟨perm.nodup_iff.mpr places.free.1,
      fun other inside => places.free.2 other ((same other).mp inside)⟩
  case chain => exact places.chain
  case entry => exact places.entry
  case apart => exact fun i other inside free => places.apart i other inside ((same other).mp free)
  case single => exact places.single
  case whole =>
    intro other small
    exact (places.whole other small).imp_left (same other).mpr

theorem InOnePlace.linked (places : self.InOnePlace) {map : Nat} {rest : List Nat}
    (free : self.uidFreeMap = map :: rest) (uuid : Uuid128) (ptr : Ptr) (id : ObjId) :
    (self.linked map rest uuid ptr id).InOnePlace := by
  obtain ⟨nodup, small⟩ := places.free
  rw [free] at nodup small
  obtain ⟨fresh, others⟩ := List.nodup_cons.mp nodup
  have absent : ∀ i, .entry map ∉ self.uidTable.shBucket i := by
    intro i inside
    have notFree := places.apart i map inside
    rw [free] at notFree
    exact notFree List.mem_cons_self
  have buckets : ∀ i link, link ∈ (self.linked map rest uuid ptr id).uidTable.shBucket i ↔
      link ∈ self.uidTable.shBucket i ∨ (link = .entry map ∧ i = uuidBucket uuid) := by
    intro i link
    change link ∈ update self.uidTable.shBucket _ _ i ↔ _
    by_cases own : i = uuidBucket uuid
    · subst own
      simp [update_self, chainOf]
    · simp [own]
  constructor
  case free => exact ⟨others, fun other inside => small other (List.mem_cons_of_mem _ inside)⟩
  case chain =>
    intro i
    change (update self.uidTable.shBucket _ _ i).Nodup
    by_cases own : i = uuidBucket uuid
    · subst own
      rw [update_self, ← List.concat_eq_append]
      exact (places.chain _).concat (absent _)
    · rw [update_of_ne own]
      exact places.chain i
  case entry =>
    intro i link inside
    rcases (buckets i link).mp inside with old | ⟨rfl, -⟩
    · exact places.entry i link old
    · exact ⟨map, small map List.mem_cons_self, rfl⟩
  case apart =>
    intro i other inside
    rcases (buckets i _).mp inside with old | ⟨same, -⟩
    · have notFree := places.apart i other old
      rw [free] at notFree
      exact fun later => notFree (List.mem_cons_of_mem _ later)
    · cases same
      exact fresh
  case single =>
    intro i j other first second
    rcases (buckets i _).mp first with here | ⟨same, own⟩
    · rcases (buckets j _).mp second with there | ⟨same, -⟩
      · exact places.single i j other here there
      · cases same
        exact absurd here (absent i)
    · cases same
      rcases (buckets j _).mp second with there | ⟨-, other⟩
      · exact absurd there (absent j)
      · exact own.trans other.symm
  case whole =>
    intro other within
    rcases places.whole other within with inside | ⟨i, inside⟩
    · rw [free] at inside
      rcases List.mem_cons.mp inside with rfl | later
      · exact Or.inr ⟨uuidBucket uuid, (buckets _ _).mpr (Or.inr ⟨rfl, rfl⟩)⟩
      · exact Or.inl later
    · exact Or.inr ⟨i, (buckets i _).mpr (Or.inl inside)⟩

/-! ## The uuids that are mapped -/

private theorem recordOf_isSome {uuid : Uuid128} :
    (self.recordOf uuid).isSome ↔
      ∃ link ∈ self.chainOf uuid, (self.objectOf link).uid128 = uuid := by
  rw [recordOf, List.find?_isSome]
  simp [ofUuid]

private theorem Sound.recordOf_returned (sound : self.Sound) {map : Nat} {rest : List Nat}
    (free : self.uidFreeMap = map :: rest) (uuid : Uuid128) (ptr : Ptr) (other : Uuid128) :
    (self.returned map rest uuid ptr).recordOf other = self.recordOf other :=
  (visited_congr (sound.taken_object free uuid ptr (uuidBucket other))).2

private theorem Sound.recordOf_linked (sound : self.Sound) {map : Nat} {rest : List Nat}
    (free : self.uidFreeMap = map :: rest) (uuid : Uuid128) (ptr : Ptr) (id : ObjId)
    (other : Uuid128) :
    ((self.linked map rest uuid ptr id).recordOf other).isSome ↔
      (self.recordOf other).isSome ∨ other = uuid := by
  have objects : ∀ i, ∀ link ∈ self.uidTable.shBucket i,
      (self.linked map rest uuid ptr id).objectOf link = self.objectOf link := by
    intro i link inside
    obtain ⟨record, rfl, notFree, -⟩ := sound.chained i link inside
    have differs : record ≠ map := by
      rintro rfl
      rw [free] at notFree
      exact notFree List.mem_cons_self
    have kept := sound.taken_object free uuid ptr i _ inside
    exact (update_of_ne differs _ _).trans kept
  have own : (self.linked map rest uuid ptr id).objectOf (.entry map) = ⟨ptr, id, uuid⟩ :=
    update_self _ _ _
  rw [recordOf_isSome, recordOf_isSome]
  by_cases shares : uuidBucket other = uuidBucket uuid
  · have chain : (self.linked map rest uuid ptr id).chainOf other =
        self.chainOf other ++ [.entry map] := by
      change update self.uidTable.shBucket _ _ _ = _
      rw [shares, update_self, chainOf, chainOf, shares]
    constructor
    · rintro ⟨link, inside, same⟩
      rw [chain] at inside
      rcases List.mem_append.mp inside with old | new
      · rw [objects _ link old] at same
        exact Or.inl ⟨link, old, same⟩
      · cases List.mem_singleton.mp new
        rw [own] at same
        exact Or.inr same.symm
    · rintro (⟨link, old, same⟩ | rfl)
      · refine ⟨link, chain ▸ List.mem_append_left _ old, ?_⟩
        rw [objects _ link old]
        exact same
      · refine ⟨.entry map, chain ▸ List.mem_append_right _ (List.mem_singleton.mpr rfl), ?_⟩
        rw [own]
  · have chain : (self.linked map rest uuid ptr id).chainOf other = self.chainOf other :=
      update_of_ne shares _ _
    have differs : other ≠ uuid := fun same => shares (congrArg uuidBucket same)
    rw [chain, or_iff_left differs]
    refine exists_congr fun link => and_congr_right fun inside => ?_
    rw [objects _ link inside]

/-- What every sequence of calls keeps. -/
structure Tracks (ctrl : UuidMapCtrl) (uuids : List Uuid128) : Prop where
  sound : ctrl.Sound
  places : ctrl.InOnePlace
  mapped : ∀ uuid, uuid ∈ uuids ↔ (ctrl.recordOf uuid).isSome

private theorem tracks_init (maps : Nat → UuidMap) : (uuidMapStdInit maps).Tracks [] where
  sound := sound_init maps
  places := inOnePlace_init maps
  mapped := fun _ => iff_of_false List.not_mem_nil Bool.false_ne_true

/-- One call adds its uuid to those that are mapped. -/
theorem Tracks.step {uuids : List Uuid128} (tracks : self.Tracks uuids) {call : MapCall}
    {id : ObjId} (stepped : self.step call = some (next, id)) :
    next.Tracks (uuids ++ [call.uuid]) := by
  have sound := tracks.sound.step stepped
  obtain ⟨map, rest, free, -, again | added⟩ := tracks.sound.step_eq_some stepped
  · obtain ⟨found, held, rfl, -⟩ := again
    refine ⟨sound, tracks.places.returned free _ _, fun uuid => ?_⟩
    rw [tracks.sound.recordOf_returned free, ← tracks.mapped, List.mem_append, List.mem_singleton]
    refine or_iff_left_of_imp fun same => ?_
    rw [same, tracks.mapped, held]
    rfl
  · obtain ⟨-, rfl⟩ := added
    refine ⟨sound, tracks.places.linked free _ _ _, fun uuid => ?_⟩
    rw [tracks.sound.recordOf_linked free, ← tracks.mapped, List.mem_append, List.mem_singleton]

theorem Tracks.run {calls : List MapCall} :
    ∀ {self final : UuidMapCtrl} {uuids : List Uuid128} {ids : List ObjId}, self.Tracks uuids →
      machine.run self calls = some (final, ids) →
        final.Tracks (uuids ++ calls.map MapCall.uuid) := by
  induction calls with
  | nil =>
      intro self final uuids ids tracks ran
      rw [Machine.run_nil, Option.some.injEq, Prod.mk.injEq] at ran
      rw [List.map_nil, List.append_nil]
      exact ran.1 ▸ tracks
  | cons call calls ih =>
      intro self final uuids ids tracks ran
      obtain ⟨next, id, later, stepped, tail, -⟩ := Machine.run_cons_eq_some ran
      have after := ih (tracks.step stepped) tail
      rwa [List.append_assoc, List.singleton_append] at after

/-! ## What a call on the state promises -/

/-- Mapping the uuid again gives the record back, changes no other and no chain, and yields the id
of the mapping to its own pointer only. -/
def MapsAgain (self : UuidMapCtrl) (call : MapCall) : Prop :=
  ∃ map rest next id found, self.uidFreeMap = map :: rest ∧
    self.step call = some (next, id) ∧ next.uidFreeMap = rest ++ [map] ∧
      next.uidTable = self.uidTable ∧
        (∀ other, other ≠ map → next.uidMapRecs other = self.uidMapRecs other) ∧
          self.recordOf call.uuid = some found ∧
            id = if (self.objectOf found).uidPtr = call.ptr then (self.objectOf found).uidObjId
              else objIdNil

/-- Looking up the uuid yields null and the nil id. -/
def NotFound (self : UuidMapCtrl) (uuid : Uuid128) : Prop :=
  self.uuid128ObjidLookup uuid = some (nullptr, objIdNil) ∧
    (uuid.uuidHi = invalUuid → self.uuid64ObjidLookup uuid.uuidLo = some (nullptr, objIdNil))

private theorem Sound.mapsAgain_iff (sound : self.Sound) {call : MapCall}
    (mapped : (self.recordOf call.uuid).isSome) :
    self.MapsAgain call ↔ self.uidFreeMap ≠ [] ∧ self.Walks call.uuid := by
  constructor
  · rintro ⟨map, rest, next, id, found, free, stepped, -⟩
    obtain ⟨_, _, _, walks, -⟩ := sound.step_eq_some stepped
    exact ⟨by rw [free]; exact List.cons_ne_nil _ _, walks⟩
  · rintro ⟨some, walks⟩
    obtain ⟨map, rest, free⟩ := List.exists_cons_of_ne_nil some
    obtain ⟨found, held⟩ := Option.isSome_iff_exists.mp mapped
    refine ⟨map, rest, self.returned map rest call.uuid call.ptr, _, found, free, ?_, rfl, rfl,
      ?_, held, rfl⟩
    · rw [step_eq, objidMapUuid128_eq free, sound.addMapping_eq free, if_pos walks, held]
      rfl
    · exact fun other differs => self.taken_other differs rest call.uuid call.ptr

private theorem Sound.notFound_iff (sound : self.Sound) {uuid : Uuid128}
    (unmapped : self.recordOf uuid = none) :
    self.NotFound uuid ↔ self.chainOf uuid ≠ [] ∧ self.Walks uuid := by
  have looked : self.uuid128ObjidLookup uuid =
      if (self.chainOf uuid).isEmpty then none
      else if self.Walks uuid then some (nullptr, objIdNil) else none := by
    rw [uuid128ObjidLookup]
    dsimp only
    rw [shashIndex_taken sound.sized, Option.bind_some]
    change (if (self.chainOf uuid).isEmpty then none else
      (self.objidScan (idOf uuid) (.stack ⟨nullptr, objIdNil, uuid⟩) (self.chainOf uuid) 0).map
        _) = _
    rw [objidScan_eq sound.mask]
    congr 1
    change Option.map _ (if self.Walks uuid then some (self.recordOf uuid, _) else none) = _
    rw [unmapped]
    split <;> rfl
  have narrow : uuid.uuidHi = invalUuid →
      self.uuid64ObjidLookup uuid.uuidLo = self.uuid128ObjidLookup uuid := by
    intro low
    rw [uuid64ObjidLookup, ← low]
  have both : self.NotFound uuid ↔ self.uuid128ObjidLookup uuid = some (nullptr, objIdNil) := by
    refine ⟨fun found => found.1, fun found => ⟨found, fun low => ?_⟩⟩
    rw [narrow low]
    exact found
  rw [both, looked]
  cases chain : self.chainOf uuid with
  | nil => simp
  | cons link rest => simp

/-- **The records.** Behind every sequence of calls every record is in one place. Mapping a
mapped uuid again does what it should exactly where a record is free and the walk to its record
meets only ids that are the number of the bucket; looking up any other uuid, exactly where its
chain is not empty and has only such ids. -/
theorem records_right_iff (maps : Nat → UuidMap) {calls : List MapCall} {ctrl : UuidMapCtrl}
    {ids : List ObjId} (ran : machine.run (uuidMapStdInit maps) calls = some (ctrl, ids)) :
    ctrl.InOnePlace ∧
      (∀ call : MapCall, call.uuid ∈ calls.map MapCall.uuid →
        (ctrl.MapsAgain call ↔ ctrl.uidFreeMap ≠ [] ∧ ctrl.Walks call.uuid)) ∧
      ∀ uuid, uuid ∉ calls.map MapCall.uuid →
        (ctrl.NotFound uuid ↔ ctrl.chainOf uuid ≠ [] ∧ ctrl.Walks uuid) := by
  have tracks := (tracks_init maps).run ran
  rw [List.nil_append] at tracks
  refine ⟨tracks.places, fun call mapped => ?_, fun uuid unmapped => ?_⟩
  · exact tracks.sound.mapsAgain_iff ((tracks.mapped _).mp mapped)
  · rw [tracks.mapped, Bool.not_eq_true, Option.isSome_eq_false_iff, Option.isNone_iff_eq_none]
      at unmapped
    exact tracks.sound.notFound_iff unmapped

/-- A uuid alone in its bucket is mapped again with another pointer. -/
theorem records_right_twice :
    ∃ ctrl ids, machine.run (uuidMapStdInit blankMaps) [.map64 64 2, .map64 64 3] =
        some (ctrl, ids) ∧ ids = [64, objIdNil] ∧
      ctrl.InOnePlace ∧
        (∀ call : MapCall, call.uuid ∈ [(⟨64, invalUuid⟩ : Uuid128), ⟨64, invalUuid⟩] →
          (ctrl.MapsAgain call ↔ ctrl.uidFreeMap ≠ [] ∧ ctrl.Walks call.uuid)) ∧
        ∀ uuid, uuid ∉ [(⟨64, invalUuid⟩ : Uuid128), ⟨64, invalUuid⟩] →
          (ctrl.NotFound uuid ↔ ctrl.chainOf uuid ≠ [] ∧ ctrl.Walks uuid) := by
  have mask : idxMaskLoop (1 <<< uuidMapRecShft) = BitVec.allOnes 32 :=
    idxMaskLoop_allOnes (by decide)
  have given : (machine.run (uuidMapStdInit blankMaps) [.map64 64 2, .map64 64 3]).map Prod.snd =
      some [64, objIdNil] := by
    rw [uuidMapStdInit, objidInitCtrl, mask]
    decide +kernel
  obtain ⟨⟨ctrl, ids⟩, ran, same⟩ := Option.map_eq_some_iff.mp given
  exact ⟨ctrl, ids, ran, same, records_right_iff blankMaps ran⟩

/-- The record of a uuid in the first bucket has no id of that bucket: mapping it again fails an
assertion. The first lookup of all reads what is not set. -/
theorem exists_records_not_right :
    ∃ ctrl ids, machine.run (uuidMapStdInit blankMaps) [.map64 65536 1] = some (ctrl, ids) ∧
      ¬ ctrl.MapsAgain (.map64 65536 1) ∧
        ¬ (uuidMapStdInit blankMaps).NotFound ⟨5, invalUuid⟩ := by
  have mask : idxMaskLoop (1 <<< uuidMapRecShft) = BitVec.allOnes 32 :=
    idxMaskLoop_allOnes (by decide)
  have once : (machine.run (uuidMapStdInit blankMaps) [.map64 65536 1]).isSome := by
    rw [uuidMapStdInit, objidInitCtrl, mask]
    decide +kernel
  have twice : (machine.run (uuidMapStdInit blankMaps)
      [.map64 65536 1, .map64 65536 1]).isNone := by
    rw [uuidMapStdInit, objidInitCtrl, mask]
    decide +kernel
  obtain ⟨⟨ctrl, ids⟩, ran⟩ := Option.isSome_iff_exists.mp once
  refine ⟨ctrl, ids, ran, ?_, ?_⟩
  · rintro ⟨map, rest, next, id, found, -, stepped, -⟩
    have again : machine.run (uuidMapStdInit blankMaps) ([.map64 65536 1] ++ [.map64 65536 1]) =
        some (next, ids ++ [id]) := by
      rw [Machine.run_concat, ran, Option.bind_some]
      exact congrArg (Option.map _) stepped
    rw [List.singleton_append] at again
    rw [again] at twice
    cases twice
  · intro found
    have some := ((sound_init blankMaps).notFound_iff rfl).mp found
    exact some.1 rfl

end UuidMapCtrl

end Tvntd
