import Mathlib.Data.Finset.Card
import Mathlib.Data.Finset.Range
import Tvntd.Di.ModuleLife

/-! # The resource container

`RsContainer` of `common/di/module.cpp`: resources in the slots of an array and
in the name table of the module, by their names and by their ids. A resource
without a name has the empty string as its string key, and one without an id has
the 64-bit key zero. The link `rs_id_link` of a resource has its number.

A write behind the array is recorded and changes nothing else. The use of an
array that is null or deleted is undefined.
-/

namespace Tvntd

open Function

/-- An allocated `rs_array`. -/
structure RsArray where
  size : Nat
  slots : Nat → Option Obj
  live : Bool

structure RsContainer where
  mem : ObjMem
  mNameTab : Dhash Link
  rsIdx : Obj → Option Nat
  rsCnt : Int
  rsArrElm : Nat
  rsArray : Option RsArray
  /-- Some write was behind the array. -/
  wild : Bool

namespace RsContainer

/-- `rs_array[i] = nullptr` in the constructor. -/
def rsClear (self : RsContainer) (i : Nat) : RsContainer :=
  match self.rsArray with
  | none => { self with wild := true }
  | some arr =>
      if i < arr.size then
        { self with rsArray := some { arr with slots := update arr.slots i none } }
      else { self with wild := true }

/-- `RsContainer(int)`; the bound of its loop is inclusive. -/
def new (mem : ObjMem) (rsIdx : Obj → Option Nat) (max : Nat) : RsContainer :=
  let self : RsContainer :=
    { mem := mem
      mNameTab := dhashInit (if max = 0 then 67 else max)
      rsIdx := rsIdx
      rsCnt := 0
      rsArrElm := max
      rsArray := none
      wild := false }
  if 0 < max then
    (List.range (max + 1)).foldl rsClear { self with rsArray := some ⟨max, fun _ => none, true⟩ }
  else self

/-- Reads `rs_array[i]`. -/
def rsSlot (self : RsContainer) (i : Nat) : Option (Option Obj) :=
  self.rsArray.bind fun arr => if arr.live ∧ i < arr.size then some (arr.slots i) else none

/-- Writes `rs_array[i]`. -/
def rsStore (self : RsContainer) (i : Nat) (rs : Option Obj) : Option RsContainer :=
  self.rsArray.bind fun arr =>
    if arr.live ∧ i < arr.size then
      some { self with rsArray := some { arr with slots := update arr.slots i rs } }
    else none

/-- `rs_resize_container`: the array that is deleted is the new one. -/
def rsResizeContainer (self : RsContainer) (max : Nat) : Option RsContainer :=
  if max ≤ self.rsArrElm then some self
  else
    match self.rsArray with
    | none =>
        if self.rsArrElm = 0 then
          some { self with rsArray := some ⟨max, fun _ => none, false⟩, rsArrElm := max }
        else none
    | some old =>
        if old.live then
          some { self with
            rsArray := some
              ⟨max, fun i => if i < self.rsArrElm then old.slots i else none, false⟩
            rsArrElm := max }
        else none

def named (mem : ObjMem) (rs : Obj) : Bool := (mem.objKeystr rs).bytes ≠ []

def numbered (mem : ObjMem) (rs : Obj) : Bool := mem.objKey64 rs ≠ 0

/-- What `rs_add` and `rs_add_index` do with the name table. -/
def rsIndex (self : RsContainer) (rs : Obj) : Option RsContainer :=
  (if named self.mem rs then
    (DHashObj.insertKeystr ⟨self.mem, self.mNameTab⟩ rs).map fun result =>
      { self with mem := result.2.mem, mNameTab := result.2.mTab }
  else some self).bind fun self =>
    if numbered self.mem rs then
      (DHashObj.insertChain ⟨self.mem, self.mNameTab⟩ rs rs).map fun result =>
        { self with mem := result.2.mem, mNameTab := result.2.mTab }
    else some self

/-- The loop of `rs_add` over `left` slots from the slot `i`. -/
def rsFree (self : RsContainer) : Nat → Nat → Option (Option Nat)
  | 0, _ => some none
  | left + 1, i =>
      (self.rsSlot i).bind fun slot =>
        if slot = none then some (some i) else self.rsFree left (i + 1)

def rsAdd (self : RsContainer) (rs : Obj) : Option RsContainer :=
  if self.rsCnt < self.rsArrElm then
    (self.rsIndex rs).bind fun self =>
      (self.rsFree self.rsArrElm 0).bind fun free =>
        free.bind fun i =>
          { self with
            rsCnt := self.rsCnt + 1
            rsIdx := update self.rsIdx rs (some i) }.rsStore i (some rs)
  else none

def rsAddIndex (self : RsContainer) (rs : Obj) (idx : Nat) : Option RsContainer :=
  if idx < self.rsArrElm then
    (self.rsSlot idx).bind fun slot =>
      if slot = none ∨ slot = some rs then
        (self.rsIndex rs).bind fun self =>
          { self with rsIdx := update self.rsIdx rs (some idx) }.rsStore idx (some rs)
      else none
  else none

def rsRemove (self : RsContainer) (rs : Obj) : Option RsContainer :=
  (self.rsIdx rs).bind fun idx =>
    (self.rsSlot idx).bind fun slot =>
      if slot = some rs then
        (DHashObj.removeObj ⟨self.mem, self.mNameTab⟩ rs).bind fun unnamed =>
          (unnamed.removeChain rs rs).bind fun unlinked =>
            { self with
              mem := unlinked.mem
              mNameTab := unlinked.mTab
              rsCnt := self.rsCnt - 1 }.rsStore idx none
      else none

/-- `rs_query(uint64_t)` -/
def rsQueryId (self : RsContainer) (id : Key64) : Option (Option Obj × RsContainer) :=
  (DHashObj.lookup64 objCompare64 ⟨self.mem, self.mNameTab⟩ id).map fun result =>
    (result.1, { self with mNameTab := result.2.mTab })

/-- `rs_query(const char *)` -/
def rsQueryName (self : RsContainer) (name : CStr) : Option (Option Obj × RsContainer) :=
  (DHashObj.lookupStr ⟨self.mem, self.mNameTab⟩ name).map fun result =>
    (result.1, { self with mNameTab := result.2.mTab })

/-! ## Runs -/

inductive Op where
  | add (rs : Obj)
  | addIndex (rs : Obj) (idx : Nat)
  | remove (rs : Obj)
  | resize (max : Nat)
  | queryId (id : Key64)
  | queryName (name : CStr)

/-- A container and its residents by the calls so far. -/
structure Tracked where
  self : RsContainer
  residents : List Obj

def joined (rs : Obj) (residents : List Obj) : List Obj :=
  if rs ∈ residents then residents else rs :: residents

def step (state : Tracked) : Op → Option (Tracked × Option Obj)
  | .add rs => (state.self.rsAdd rs).map fun next => (⟨next, joined rs state.residents⟩, none)
  | .addIndex rs idx =>
      (state.self.rsAddIndex rs idx).map fun next => (⟨next, joined rs state.residents⟩, none)
  | .remove rs =>
      (state.self.rsRemove rs).map fun next => (⟨next, state.residents.filter (· ≠ rs)⟩, none)
  | .resize max =>
      (state.self.rsResizeContainer max).map fun next => (⟨next, state.residents⟩, none)
  | .queryId id =>
      (state.self.rsQueryId id).map fun result => (⟨result.2, state.residents⟩, result.1)
  | .queryName name =>
      (state.self.rsQueryName name).map fun result => (⟨result.2, state.residents⟩, result.1)

def machine : Machine Tracked Op (Option Obj) := ⟨step⟩

def Initial (max : Nat) (state : Tracked) : Prop :=
  state.residents = [] ∧ ∃ mem rsIdx, state.self = new mem rsIdx max

/-- The links of a resource that are used are free. -/
def FreeLinks (mem : ObjMem) (rs : Obj) : Prop :=
  (named mem rs = true → mem.mChain rs = false) ∧ (numbered mem rs = true → mem.olPtr rs = none)

/-- What the assertions ask of a call. -/
def Legal (state : Tracked) : Op → Prop
  | .add rs => state.self.rsCnt < state.self.rsArrElm ∧ FreeLinks state.self.mem rs
  | .addIndex rs idx => idx < state.self.rsArrElm ∧
      (state.self.rsSlot idx = some none ∨ state.self.rsSlot idx = some (some rs)) ∧
        FreeLinks state.self.mem rs
  | .remove rs => ∃ idx, state.self.rsIdx rs = some idx ∧ state.self.rsSlot idx = some (some rs)
  | .resize _ | .queryId _ | .queryName _ => True

/-- In the next bucket array the name hash of every resident with a name and an id agrees with its
id, and the size of that array is an `int`. -/
def RehashKeeps (state : Tracked) : Prop :=
  state.self.mNameTab.dhBkSize < 2 ^ 30 ∧ ∀ rs ∈ state.residents,
    numbered state.self.mem rs = true →
    objHashStrfn (1 + state.self.mNameTab.dhBkSize * 2) (state.self.mem.objKeystr rs).bytes =
      objHash64 (1 + state.self.mNameTab.dhBkSize * 2) (state.self.mem.objKey64 rs)

/-- A resource with an id has a name, one that is removed has both, and an index is given only to
the resource that is there already. The container does not grow. No resident has an id that
agrees with the one asked for in its low half only, and a search that rehashes keeps every link
in its slot. -/
def Keeps (state : Tracked) : Op → Prop
  | .add rs => (numbered state.self.mem rs = true → named state.self.mem rs = true) ∧
      state.self.mNameTab.dhElmCnt + 2 < 2 ^ 31
  | .addIndex rs idx => state.self.rsSlot idx = some (some rs) ∧
      (numbered state.self.mem rs = true → named state.self.mem rs = true)
  | .remove rs => named state.self.mem rs = true ∧ numbered state.self.mem rs = true
  | .resize max => max ≤ state.self.rsArrElm
  | .queryId id =>
      (∀ rs ∈ state.residents, (state.self.mem.objKey64 rs).setWidth 32 = id.setWidth 32 →
        state.self.mem.objKey64 rs = id) ∧
      (LongWalk (DHashObj.keyed state.self.mem id)
        (state.self.mNameTab.dhBucket (objHash64 state.self.mNameTab.dhBkSize id)) →
          RehashKeeps state)
  | .queryName name =>
      LongWalk (DHashObj.named state.self.mem name)
        (state.self.mNameTab.dhBucket (objHashStrfn state.self.mNameTab.dhBkSize name.bytes)) →
          RehashKeeps state

/-- A query returns only residents with the id or the name, and it returns one if there is one.
Zero is no id, and the empty string is no name. -/
def Finds (state : Tracked) (answer : Option Obj) : Op → Prop
  | .queryId id =>
      (∀ rs, answer = some rs → rs ∈ state.residents ∧ state.self.mem.objKey64 rs = id) ∧
        (id ≠ 0 → ∀ rs ∈ state.residents, state.self.mem.objKey64 rs = id → answer.isSome)
  | .queryName name =>
      (∀ rs, answer = some rs → rs ∈ state.residents ∧ state.self.mem.objKeystr rs = name) ∧
        (name.bytes ≠ [] → ∀ rs ∈ state.residents, state.self.mem.objKeystr rs = name →
          answer.isSome)
  | .add _ | .addIndex _ _ | .remove _ | .resize _ => True

/-- The slots that hold a resource. -/
def occupied (self : RsContainer) : Finset Nat :=
  (Finset.range self.rsArrElm).filter fun i => (self.rsSlot i).join.isSome

/-- `rs_cnt` is the number of occupied slots, and every resident is in the live array at its
index. -/
def Consistent (state : Tracked) : Prop :=
  state.self.rsCnt = (occupied state.self).card ∧
    ∀ rs ∈ state.residents, ∃ idx, state.self.rsIdx rs = some idx ∧
      state.self.rsSlot idx = some (some rs)

/-! ## The array -/

private theorem foldl_rsClear {self : RsContainer} {max : Nat} (fresh : self.wild = false)
    (allocated : self.rsArray = some ⟨max, fun _ => none, true⟩) : ∀ turns ≤ max,
    (List.range turns).foldl rsClear self = self
  | 0, _ => rfl
  | turns + 1, within => by
      rw [List.range_succ, List.foldl_append, foldl_rsClear fresh allocated turns (by omega)]
      change self.rsClear turns = self
      unfold rsClear
      rw [allocated]
      simp only [if_pos (show turns < max by omega), update_eq_self_iff.mpr rfl]
      rw [← allocated]

/-- The last turn of the constructor's loop writes behind the array. -/
theorem new_eq (mem : ObjMem) (rsIdx : Obj → Option Nat) (max : Nat) :
    new mem rsIdx max =
      { mem := mem
        mNameTab := dhashInit (if max = 0 then 67 else max)
        rsIdx := rsIdx
        rsCnt := 0
        rsArrElm := max
        rsArray := if 0 < max then some ⟨max, fun _ => none, true⟩ else none
        wild := decide (0 < max) } := by
  unfold new
  by_cases positive : 0 < max
  · rw [if_pos positive, if_pos positive, decide_eq_true positive, List.range_succ,
      List.foldl_append, foldl_rsClear rfl rfl max (Nat.le_refl max), List.foldl_cons,
      List.foldl_nil]
    unfold rsClear
    simp only [if_neg (Nat.lt_irrefl max)]
  · rw [if_neg positive, if_neg positive, decide_eq_false positive]

variable {self next : RsContainer} {rs : Obj} {residents : List Obj}

theorem rsStore_some {i : Nat} {slot : Option Obj} (stored : self.rsStore i slot = some next) :
    next = { self with rsArray := next.rsArray } ∧ next.rsSlot i = some slot ∧
      ∀ j, j ≠ i → next.rsSlot j = self.rsSlot j := by
  obtain ⟨arr, held, written⟩ := Option.bind_eq_some_iff.mp stored
  by_cases inside : arr.live = true ∧ i < arr.size
  · rw [if_pos inside, Option.some.injEq] at written
    subst written
    refine ⟨rfl, ?_, fun j other => ?_⟩
    · change (if arr.live = true ∧ i < arr.size then some (update arr.slots i slot i)
        else none) = _
      rw [if_pos inside, update_self]
    · unfold rsSlot
      rw [held, Option.bind_some, Option.bind_some]
      change (if arr.live = true ∧ j < arr.size then some (update arr.slots i slot j)
        else none) = _
      rw [update_of_ne other]
  · rw [if_neg inside] at written
    cases written

/-- A store neither frees the array nor changes its bounds. -/
theorem isSome_rsSlot_of_rsStore {i : Nat} {slot : Option Obj}
    (stored : self.rsStore i slot = some next) (inside : (self.rsSlot i).isSome) (j : Nat) :
    (next.rsSlot j).isSome ↔ (self.rsSlot j).isSome := by
  obtain ⟨-, here, elsewhere⟩ := rsStore_some stored
  by_cases at_ : j = i
  · rw [at_, here]
    exact iff_of_true rfl inside
  · rw [elsewhere j at_]

private theorem rsStore_of_rsSlot {i : Nat} (slot : Option Obj) (inside : (self.rsSlot i).isSome) :
    ∃ next, self.rsStore i slot = some next := by
  obtain ⟨before, read⟩ := Option.isSome_iff_exists.mp inside
  obtain ⟨arr, held, there⟩ := Option.bind_eq_some_iff.mp read
  by_cases live : arr.live = true ∧ i < arr.size
  · unfold rsStore
    rw [held, Option.bind_some, if_pos live]
    exact ⟨_, rfl⟩
  · rw [if_neg live] at there
    cases there

private theorem mem_occupied {i : Nat} :
    i ∈ occupied self ↔ i < self.rsArrElm ∧ (self.rsSlot i).join.isSome := by
  unfold occupied
  rw [Finset.mem_filter, Finset.mem_range]

private theorem occupied_fill {i : Nat} (sized : next.rsArrElm = self.rsArrElm)
    (inside : i < self.rsArrElm) (filled : next.rsSlot i = some (some rs))
    (others : ∀ j, j ≠ i → next.rsSlot j = self.rsSlot j) :
    occupied next = insert i (occupied self) := by
  ext j
  rw [Finset.mem_insert, mem_occupied, mem_occupied, sized]
  by_cases same : j = i
  · subst same
    rw [filled]
    exact iff_of_true ⟨inside, rfl⟩ (Or.inl rfl)
  · rw [others j same]
    exact (or_iff_right same).symm

private theorem occupied_empty {i : Nat} (sized : next.rsArrElm = self.rsArrElm)
    (emptied : next.rsSlot i = some none)
    (others : ∀ j, j ≠ i → next.rsSlot j = self.rsSlot j) :
    occupied next = (occupied self).erase i := by
  ext j
  rw [Finset.mem_erase, mem_occupied, mem_occupied, sized]
  by_cases same : j = i
  · subst same
    rw [emptied]
    exact iff_of_false (fun both => Bool.false_ne_true both.2) fun both => both.1 rfl
  · rw [others j same]
    exact (and_iff_right same).symm

/-- The loop finds the first empty slot. -/
theorem rsFree_eq : ∀ (left i : Nat), (∀ j, i ≤ j → j < i + left → (self.rsSlot j).isSome) →
    (∃ j, i ≤ j ∧ j < i + left ∧ self.rsSlot j = some none) →
      ∃ k < i + left, self.rsFree left i = some (some k) ∧ self.rsSlot k = some none
  | 0, i, _, empty => by
      obtain ⟨j, least, below, -⟩ := empty
      omega
  | left + 1, i, inside, empty => by
      obtain ⟨slot, read⟩ := Option.isSome_iff_exists.mp (inside i (Nat.le_refl i) (by omega))
      by_cases none : slot = none
      · subst none
        refine ⟨i, by omega, ?_, read⟩
        rw [rsFree, read, Option.bind_some, if_pos rfl]
      · obtain ⟨j, least, below, there⟩ := empty
        have later : i ≠ j := by
          rintro rfl
          rw [read, Option.some.injEq] at there
          exact none there
        obtain ⟨k, bound, found, at_⟩ := rsFree_eq left (i + 1)
          (fun j least below => inside j (by omega) (by omega)) ⟨j, by omega, by omega, there⟩
        refine ⟨k, by omega, ?_, at_⟩
        rw [rsFree, read, Option.bind_some, if_neg none]
        exact found

/-! ## The name table -/

/-- The links that a resource is found by. -/
def linksOf (mem : ObjMem) (rs : Obj) : List Linked :=
  (if named mem rs then [.keystr rs] else []) ++ if numbered mem rs then [.chain rs rs] else []

private theorem mem_linksOf {mem : ObjMem} {l : Linked} : l ∈ linksOf mem rs ↔
    (named mem rs = true ∧ l = .keystr rs) ∨ (numbered mem rs = true ∧ l = .chain rs rs) := by
  unfold linksOf
  cases named mem rs <;> cases numbered mem rs <;> simp

theorem named_congr {mem other : ObjMem} (names : other.objKeystr = mem.objKeystr) (rs : Obj) :
    named other rs = named mem rs := by
  unfold named
  rw [names]

theorem numbered_congr {mem other : ObjMem} (ids : other.objKey64 = mem.objKey64) (rs : Obj) :
    numbered other rs = numbered mem rs := by
  unfold numbered
  rw [ids]

private theorem linksOf_congr {mem other : ObjMem} (ids : other.objKey64 = mem.objKey64)
    (names : other.objKeystr = mem.objKeystr) : linksOf other rs = linksOf mem rs := by
  unfold linksOf
  rw [named_congr names, numbered_congr ids]

/-- An anonymous resource changes nothing. -/
theorem rsIndex_anonymous (unnamed : named self.mem rs = false)
    (unnumbered : numbered self.mem rs = false) : self.rsIndex rs = some self := by
  unfold rsIndex
  rw [unnamed, if_neg Bool.false_ne_true, Option.bind_some, unnumbered, if_neg Bool.false_ne_true]

theorem rsIndex_eq {all : List Linked} (links : DHashObj.Holds ⟨self.mem, self.mNameTab⟩ all)
    (free : FreeLinks self.mem rs)
    (both : numbered self.mem rs = true → named self.mem rs = true)
    (fits : self.mNameTab.dhElmCnt + 2 < 2 ^ 31) :
    ∃ mem tab, self.rsIndex rs = some { self with mem := mem, mNameTab := tab } ∧
      mem.objKey64 = self.mem.objKey64 ∧ mem.objKeystr = self.mem.objKeystr ∧
        DHashObj.Holds ⟨mem, tab⟩ (all ++ linksOf self.mem rs) := by
  cases name : named self.mem rs with
  | false =>
      have unnumbered : numbered self.mem rs = false := by
        cases id : numbered self.mem rs with
        | false => rfl
        | true =>
            rw [both id] at name
            cases name
      refine ⟨self.mem, self.mNameTab, rsIndex_anonymous name unnumbered, rfl, rfl, ?_⟩
      unfold linksOf
      rw [name, unnumbered]
      simpa using links
  | true =>
      obtain ⟨_, byName, inserted, heldMem, still⟩ := links.insertKeystr (free.1 name)
        (by change self.mNameTab.dhElmCnt + 1 < _; omega)
      cases id : numbered self.mem rs with
      | false =>
          refine ⟨byName.mem, byName.mTab, ?_, by rw [heldMem]; rfl, by rw [heldMem]; rfl, ?_⟩
          · have after : numbered byName.mem rs = false := by
              rw [heldMem]
              exact id
            unfold rsIndex
            rw [name, if_pos rfl, inserted, Option.map_some, Option.bind_some]
            exact if_neg (by rw [after]; exact Bool.false_ne_true)
          · unfold linksOf
            rw [name, id]
            exact still
      | true =>
          have counted : byName.mTab.dhElmCnt + 1 < 2 ^ 31 := by
            have before := links.count
            have after := still.count
            rw [List.length_append, List.length_singleton] at after
            change self.mNameTab.dhElmCnt = _ at before
            omega
          obtain ⟨_, byId, chained, idMem, last⟩ := still.insertChain
            (by rw [heldMem]; exact free.2 id)
            (by rw [heldMem]; exact DHashObj.mChain_hold self.mem rs) counted
          refine ⟨byId.mem, byId.mTab, ?_, by rw [idMem, heldMem]; rfl,
            by rw [idMem, heldMem]; rfl, ?_⟩
          · have after : numbered byName.mem rs = true := by
              rw [heldMem]
              exact id
            unfold rsIndex
            rw [name, if_pos rfl, inserted, Option.map_some, Option.bind_some]
            refine (if_pos after).trans ?_
            change ((DHashObj.insertChain byName rs rs).map _) = _
            rw [chained]
            rfl
          · unfold linksOf
            rw [name, id]
            rw [List.append_assoc] at last
            exact last

/-! ## The invariant -/

def LinksOf (mem : ObjMem) (residents : List Obj) (all : List Linked) : Prop :=
  ∀ l, l ∈ all ↔ ∃ rs ∈ residents, l ∈ linksOf mem rs

/-- The slots up to `rs_arr_elm` can be used, every resident stands at its index, a slot holds a
resident, and the links of the name table are the links of the residents. -/
structure Holds (ct : RsContainer) (residents : List Obj) : Prop where
  bounded : ∀ i, (ct.rsSlot i).isSome ↔ i < ct.rsArrElm
  linked : ∃ all, DHashObj.Holds ⟨ct.mem, ct.mNameTab⟩ all ∧ LinksOf ct.mem residents all
  both : ∀ rs ∈ residents, numbered ct.mem rs = true → named ct.mem rs = true
  placed : ∀ rs ∈ residents, ∃ idx, ct.rsIdx rs = some idx ∧ ct.rsSlot idx = some (some rs)
  held : ∀ idx rs, ct.rsSlot idx = some (some rs) →
    rs ∈ residents ∧ (named ct.mem rs = true → ct.rsIdx rs = some idx)
  count : ct.rsCnt = (occupied ct).card

private theorem mem_joined {other : Obj} :
    other ∈ joined rs residents ↔ other = rs ∨ other ∈ residents := by
  unfold joined
  split
  · rename_i member
    exact ⟨Or.inr, fun which => which.elim (fun same => same ▸ member) id⟩
  · exact List.mem_cons

private theorem holds_new (mem : ObjMem) (rsIdx : Obj → Option Nat) (max : Nat) :
    Holds (new mem rsIdx max) [] := by
  rw [new_eq]
  have empty : ∀ i, (rsSlot
      { mem := mem
        mNameTab := dhashInit (if max = 0 then 67 else max)
        rsIdx := rsIdx
        rsCnt := 0
        rsArrElm := max
        rsArray := if 0 < max then some ⟨max, fun _ => none, true⟩ else none
        wild := decide (0 < max) } i) = if i < max then some none else none := by
    intro i
    unfold rsSlot
    by_cases positive : 0 < max
    · simp only [if_pos positive, Option.bind_some, true_and]
    · rw [if_neg positive, Option.bind_none, if_neg (by omega)]
  refine ⟨fun i => ?_, ⟨[], DHashObj.holds_init mem ?_, fun l => ?_⟩,
    fun _ none => (nomatch none), fun _ none => (nomatch none), fun i rs => ?_, ?_⟩
  · rw [empty]
    by_cases inside : i < max
    · simp [inside]
    · simp [inside]
  · split
    · decide
    · omega
  · exact ⟨fun inside => (nomatch inside), fun ⟨_, inside, _⟩ => (nomatch inside)⟩
  · rw [empty]
    intro there
    split at there
    · cases there
    · cases there
  · have nothing : occupied _ = ∅ := Finset.eq_empty_of_forall_notMem fun i member => by
      have filled := (mem_occupied.mp member).2
      rw [empty] at filled
      split at filled
      · cases filled
      · cases filled
    rw [nothing]
    rfl

theorem LinksOf.joined {mem other : ObjMem} {all : List Linked} (links : LinksOf mem residents all)
    (ids : other.objKey64 = mem.objKey64) (names : other.objKeystr = mem.objKeystr) :
    LinksOf other (joined rs residents) (all ++ linksOf mem rs) := by
  intro l
  rw [List.mem_append, links l]
  constructor
  · rintro (⟨resident, member, own⟩ | own)
    · exact ⟨resident, mem_joined.mpr (Or.inr member), linksOf_congr ids names ▸ own⟩
    · exact ⟨rs, mem_joined.mpr (Or.inl rfl), linksOf_congr ids names ▸ own⟩
  · rintro ⟨resident, member, own⟩
    rw [linksOf_congr ids names] at own
    rcases mem_joined.mp member with rfl | before
    · exact Or.inr own
    · exact Or.inl ⟨resident, before, own⟩

/-- A resident with a name is linked by it. -/
theorem Holds.mChain (holds : Holds self residents) (member : rs ∈ residents)
    (name : named self.mem rs = true) : self.mem.mChain rs = true := by
  obtain ⟨all, links, own⟩ := holds.linked
  exact links.refers (.keystr rs) ((own _).mpr ⟨rs, member, mem_linksOf.mpr (Or.inl ⟨name, rfl⟩)⟩)

theorem Holds.exists_free (holds : Holds self residents) (room : self.rsCnt < self.rsArrElm) :
    ∃ j < self.rsArrElm, self.rsSlot j = some none := by
  by_contra full
  have all : occupied self = Finset.range self.rsArrElm := by
    refine Finset.filter_eq_self.mpr fun j inside => ?_
    have below := Finset.mem_range.mp inside
    obtain ⟨slot, read⟩ := Option.isSome_iff_exists.mp ((holds.bounded j).mpr below)
    rw [read]
    cases slot with
    | none => exact absurd ⟨j, below, read⟩ full
    | some rs => rfl
  have count := holds.count
  rw [all, Finset.card_range] at count
  omega

/-- Storing a resource in a slot that is empty or holds it already. -/
theorem Holds.store (holds : Holds self residents) {mem : ObjMem} {tab : Dhash Link} {i : Nat}
    {cnt : Int} (ids : mem.objKey64 = self.mem.objKey64)
    (names : mem.objKeystr = self.mem.objKeystr)
    (links : ∃ all, DHashObj.Holds ⟨mem, tab⟩ all ∧ LinksOf mem (joined rs residents) all)
    (both : numbered self.mem rs = true → named self.mem rs = true)
    (fresh : named self.mem rs = true → rs ∉ residents)
    (slot : self.rsSlot i = some none ∨ self.rsSlot i = some (some rs))
    (counted : cnt = (insert i (occupied self)).card) :
    ∃ next, rsStore
        { self with
          mem := mem
          mNameTab := tab
          rsCnt := cnt
          rsIdx := update self.rsIdx rs (some i) } i (some rs) = some next ∧
      Holds next (joined rs residents) := by
  have inside : (self.rsSlot i).isSome := by
    rcases slot with empty | own
    · rw [empty]
      rfl
    · rw [own]
      rfl
  obtain ⟨next, stored⟩ : ∃ next, rsStore
      { self with
        mem := mem
        mNameTab := tab
        rsCnt := cnt
        rsIdx := update self.rsIdx rs (some i) } i (some rs) = some next :=
    rsStore_of_rsSlot (some rs) inside
  obtain ⟨same, here, others⟩ := rsStore_some stored
  have elsewhere : ∀ j, j ≠ i → next.rsSlot j = self.rsSlot j := others
  have sized : next.rsArrElm = self.rsArrElm := by rw [same]
  have indexed : next.rsIdx = update self.rsIdx rs (some i) := by rw [same]
  have keptMem : next.mem = mem := by rw [same]
  have keptTab : next.mNameTab = tab := by rw [same]
  have keptNamed := named_congr (keptMem.symm ▸ names : next.mem.objKeystr = self.mem.objKeystr)
  have keptNumbered := numbered_congr (keptMem.symm ▸ ids : next.mem.objKey64 = self.mem.objKey64)
  refine ⟨next, stored, fun j => ?_, ?_, fun other member => ?_, fun other member => ?_,
    fun j other there => ?_, ?_⟩
  · rw [sized, ← holds.bounded j]
    exact isSome_rsSlot_of_rsStore stored inside j
  · rw [keptMem, keptTab]
    exact links
  · rw [keptNamed, keptNumbered]
    rcases mem_joined.mp member with rfl | before
    · exact both
    · exact holds.both other before
  · rw [indexed]
    by_cases own : other = rs
    · subst own
      exact ⟨i, update_self .., here⟩
    · obtain ⟨idx, at_, there⟩ := holds.placed other ((mem_joined.mp member).resolve_left own)
      have apart : idx ≠ i := by
        rintro rfl
        rcases slot with empty | mine
        · rw [empty] at there
          cases there
        · rw [mine] at there
          cases there
          exact own rfl
      exact ⟨idx, (update_of_ne own ..).trans at_, (elsewhere idx apart).trans there⟩
  · rw [keptNamed, indexed]
    by_cases at_ : j = i
    · subst at_
      rw [here, Option.some.injEq, Option.some.injEq] at there
      subst there
      exact ⟨mem_joined.mpr (Or.inl rfl), fun _ => update_self ..⟩
    · rw [elsewhere j at_] at there
      obtain ⟨member, index⟩ := holds.held j other there
      refine ⟨mem_joined.mpr (Or.inr member), fun name => ?_⟩
      have own : other ≠ rs := by
        rintro rfl
        exact fresh name member
      exact (update_of_ne own ..).trans (index name)
  · rw [occupied_fill sized ((holds.bounded i).mp inside) here elsewhere, ← counted, same]

/-! ## The calls -/

theorem Holds.add (holds : Holds self residents) (room : self.rsCnt < self.rsArrElm)
    (free : FreeLinks self.mem rs)
    (both : numbered self.mem rs = true → named self.mem rs = true)
    (fits : self.mNameTab.dhElmCnt + 2 < 2 ^ 31) :
    ∃ next, self.rsAdd rs = some next ∧ Holds next (joined rs residents) ∧
      next.wild = self.wild := by
  obtain ⟨all, links, own⟩ := holds.linked
  obtain ⟨mem, tab, indexed, ids, names, still⟩ := rsIndex_eq links free both fits
  obtain ⟨j, below, empty⟩ := holds.exists_free room
  obtain ⟨k, inside, found, at_⟩ : ∃ k < 0 + self.rsArrElm,
      rsFree { self with mem := mem, mNameTab := tab } self.rsArrElm 0 = some (some k) ∧
        self.rsSlot k = some none :=
    rsFree_eq self.rsArrElm 0 (fun j _ bound => (holds.bounded j).mpr (by omega))
      ⟨j, Nat.zero_le j, by omega, empty⟩
  have fresh : named self.mem rs = true → rs ∉ residents := by
    intro name member
    have linked := holds.mChain member name
    rw [free.1 name] at linked
    cases linked
  have there : self.rsSlot k = some none := at_
  have unoccupied : k ∉ occupied self := by
    intro member
    have filled := (mem_occupied.mp member).2
    rw [there] at filled
    cases filled
  have counted : self.rsCnt + 1 = ((insert k (occupied self)).card : Int) := by
    rw [Finset.card_insert_of_notMem unoccupied, holds.count]
    rfl
  obtain ⟨next, stored, after⟩ := holds.store ids names
    ⟨_, still, own.joined ids names⟩ both fresh (Or.inl there) counted
  refine ⟨next, ?_, after, ?_⟩
  · unfold rsAdd
    rw [if_pos room, indexed, Option.bind_some, found, Option.bind_some, Option.bind_some]
    exact stored
  · rw [(rsStore_some stored).1]

theorem Holds.addIndex (holds : Holds self residents) {idx : Nat} (inside : idx < self.rsArrElm)
    (own : self.rsSlot idx = some (some rs)) (free : FreeLinks self.mem rs)
    (both : numbered self.mem rs = true → named self.mem rs = true) :
    ∃ next, self.rsAddIndex rs idx = some next ∧ Holds next (joined rs residents) ∧
      next.wild = self.wild := by
  have member := (holds.held idx rs own).1
  -- a resident with a name has no free links
  have unnamed : named self.mem rs = false := by
    cases name : named self.mem rs with
    | false => rfl
    | true =>
        have linked := holds.mChain member name
        rw [free.1 name] at linked
        cases linked
  have unnumbered : numbered self.mem rs = false := by
    cases id : numbered self.mem rs with
    | false => rfl
    | true =>
        rw [both id] at unnamed
        cases unnamed
  obtain ⟨all, links, linksOwn⟩ := holds.linked
  have same : joined rs residents = residents := if_pos member
  have occupies : idx ∈ occupied self := mem_occupied.mpr ⟨inside, by rw [own]; rfl⟩
  have counted : self.rsCnt = (insert idx (occupied self)).card := by
    rw [Finset.insert_eq_of_mem occupies, holds.count]
  have linked : ∃ all, DHashObj.Holds ⟨self.mem, self.mNameTab⟩ all ∧
      LinksOf self.mem (joined rs residents) all := ⟨all, links, same.symm ▸ linksOwn⟩
  obtain ⟨next, stored, after⟩ := holds.store rfl rfl linked both
    (fun name => by rw [unnamed] at name; cases name) (Or.inr own) counted
  refine ⟨next, ?_, after, ?_⟩
  · unfold rsAddIndex
    rw [if_pos inside, own, Option.bind_some, if_pos (Or.inr rfl),
      rsIndex_anonymous unnamed unnumbered, Option.bind_some]
    exact stored
  · rw [(rsStore_some stored).1]

theorem LinksOf.removed {mem other : ObjMem} {all : List Linked} (links : LinksOf mem residents all)
    (nodup : all.Nodup) (ids : other.objKey64 = mem.objKey64)
    (names : other.objKeystr = mem.objKeystr) :
    LinksOf other (residents.filter (· ≠ rs)) ((all.erase (.keystr rs)).erase (.chain rs rs)) := by
  intro l
  rw [(nodup.erase _).mem_erase_iff, nodup.mem_erase_iff, links l]
  constructor
  · rintro ⟨notId, notName, resident, member, own⟩
    have differs : resident ≠ rs := by
      rintro rfl
      rcases mem_linksOf.mp own with ⟨-, name⟩ | ⟨-, id⟩
      · exact notName name
      · exact notId id
    exact ⟨resident, List.mem_filter.mpr ⟨member, decide_eq_true differs⟩,
      linksOf_congr ids names ▸ own⟩
  · rintro ⟨resident, member, own⟩
    obtain ⟨before, kept⟩ := List.mem_filter.mp member
    have differs : resident ≠ rs := of_decide_eq_true kept
    rw [linksOf_congr ids names] at own
    refine ⟨?_, ?_, resident, before, own⟩
    · rcases mem_linksOf.mp own with ⟨-, rfl⟩ | ⟨-, rfl⟩
      · exact fun same => Linked.noConfusion same
      · exact fun same => differs (Linked.chain.inj same).1
    · rcases mem_linksOf.mp own with ⟨-, rfl⟩ | ⟨-, rfl⟩
      · exact fun same => differs (Linked.keystr.inj same)
      · exact fun same => Linked.noConfusion same

theorem Holds.remove (holds : Holds self residents) {idx : Nat}
    (index : self.rsIdx rs = some idx) (own : self.rsSlot idx = some (some rs))
    (name : named self.mem rs = true) (id : numbered self.mem rs = true) :
    ∃ next, self.rsRemove rs = some next ∧ Holds next (residents.filter (· ≠ rs)) ∧
      next.wild = self.wild := by
  have member := (holds.held idx rs own).1
  obtain ⟨all, links, linksOwn⟩ := holds.linked
  have nodup : all.Nodup := List.Nodup.of_map _ links.chained.nodup_all
  have byName : Linked.keystr rs ∈ all :=
    (linksOwn _).mpr ⟨rs, member, mem_linksOf.mpr (Or.inl ⟨name, rfl⟩)⟩
  have byId : Linked.chain rs rs ∈ all :=
    (linksOwn _).mpr ⟨rs, member, mem_linksOf.mpr (Or.inr ⟨id, rfl⟩)⟩
  obtain ⟨unnamed, dropped, droppedMem, rest⟩ := links.removeObj byName rfl
  have left : Linked.chain rs rs ∈ all.erase (.keystr rs) :=
    (List.mem_erase_of_ne (by exact fun same => Linked.noConfusion same)).mpr byId
  obtain ⟨unlinked, taken, takenMem, still⟩ := rest.removeChain left
  have ids : unlinked.mem.objKey64 = self.mem.objKey64 := by
    rw [takenMem, droppedMem]
    rfl
  have names : unlinked.mem.objKeystr = self.mem.objKeystr := by
    rw [takenMem, droppedMem]
    rfl
  have inside : (self.rsSlot idx).isSome := by
    rw [own]
    rfl
  obtain ⟨next, stored⟩ : ∃ next, rsStore
      { self with
        mem := unlinked.mem
        mNameTab := unlinked.mTab
        rsCnt := self.rsCnt - 1 } idx none = some next :=
    rsStore_of_rsSlot none inside
  obtain ⟨same, here, others⟩ := rsStore_some stored
  have elsewhere : ∀ j, j ≠ idx → next.rsSlot j = self.rsSlot j := others
  have sized : next.rsArrElm = self.rsArrElm := by rw [same]
  have indexed : next.rsIdx = self.rsIdx := by rw [same]
  have keptMem : next.mem = unlinked.mem := by rw [same]
  have keptTab : next.mNameTab = unlinked.mTab := by rw [same]
  have keptNamed := named_congr (keptMem.symm ▸ names : next.mem.objKeystr = self.mem.objKeystr)
  have keptNumbered := numbered_congr (keptMem.symm ▸ ids : next.mem.objKey64 = self.mem.objKey64)
  refine ⟨next, ?_, ⟨fun j => ?_, ?_, fun other kept => ?_, fun other kept => ?_,
    fun j other there => ?_, ?_⟩, by rw [same]⟩
  · unfold rsRemove
    rw [index, Option.bind_some, own, Option.bind_some, if_pos rfl, dropped, Option.bind_some, taken,
      Option.bind_some]
    exact stored
  · rw [sized, ← holds.bounded j]
    exact isSome_rsSlot_of_rsStore stored inside j
  · rw [keptMem, keptTab]
    exact ⟨_, still, linksOwn.removed nodup ids names⟩
  · rw [keptNamed, keptNumbered]
    exact holds.both other (List.mem_filter.mp kept).1
  · obtain ⟨before, differs⟩ := List.mem_filter.mp kept
    obtain ⟨place, at_, there⟩ := holds.placed other before
    have apart : place ≠ idx := by
      rintro rfl
      rw [own] at there
      cases there
      exact of_decide_eq_true differs rfl
    rw [indexed]
    exact ⟨place, at_, (elsewhere place apart).trans there⟩
  · by_cases at_ : j = idx
    · rw [at_, here] at there
      cases there
    · rw [elsewhere j at_] at there
      obtain ⟨before, placed⟩ := holds.held j other there
      have differs : other ≠ rs := by
        rintro rfl
        rw [index, Option.some.injEq] at placed
        exact at_ (placed name).symm
      rw [keptNamed, indexed]
      exact ⟨List.mem_filter.mpr ⟨before, decide_eq_true differs⟩, placed⟩
  · have occupies : idx ∈ occupied self :=
      mem_occupied.mpr ⟨(holds.bounded idx).mp (by rw [own]; rfl), by rw [own]; rfl⟩
    have counted : next.rsCnt = self.rsCnt - 1 := by rw [same]
    have positive := Finset.card_pos.mpr ⟨idx, occupies⟩
    rw [counted, occupied_empty sized here elsewhere, Finset.card_erase_of_mem occupies,
      holds.count]
    omega

private theorem Holds.resident_of_link (holds : Holds self residents) {all : List Linked}
    (own : LinksOf self.mem residents all) {l : Linked} (inside : l ∈ all) :
    l.obj ∈ residents ∧ named self.mem l.obj = true ∧
      ∀ p, l = .chain l.obj p → numbered self.mem l.obj = true := by
  obtain ⟨resident, member, uses⟩ := (own l).mp inside
  rcases mem_linksOf.mp uses with ⟨name, rfl⟩ | ⟨id, rfl⟩
  · exact ⟨member, name, fun p same => Linked.noConfusion same⟩
  · exact ⟨member, holds.both resident member id, fun _ _ => id⟩

theorem Holds.anchored (holds : Holds self residents) {all : List Linked}
    (own : LinksOf self.mem residents all) : DHashObj.Anchored self.mem all := by
  intro l inside
  obtain ⟨member, name, -⟩ := holds.resident_of_link own inside
  exact holds.mChain member name

theorem LinksOf.rehashKeeps {all : List Linked} (own : LinksOf self.mem residents all)
    (keeps : RehashKeeps ⟨self, residents⟩) :
    DHashObj.RehashKeeps ⟨self.mem, self.mNameTab⟩ all := by
  refine ⟨keeps.1, fun l inside => ?_⟩
  obtain ⟨resident, member, uses⟩ := (own l).mp inside
  rcases mem_linksOf.mp uses with ⟨-, rfl⟩ | ⟨id, rfl⟩
  · rfl
  · exact keeps.2 resident member id

/-- A query changes the name table only. -/
theorem Holds.queried (holds : Holds self residents) {tab : Dhash Link} {all : List Linked}
    (links : DHashObj.Holds ⟨self.mem, tab⟩ all) (own : LinksOf self.mem residents all) :
    Holds { self with mNameTab := tab } residents :=
  ⟨holds.bounded, ⟨all, links, own⟩, holds.both, holds.placed, holds.held, holds.count⟩

private theorem Holds.queryId (holds : Holds self residents) {id : Key64}
    (keeps : Keeps ⟨self, residents⟩ (.queryId id)) :
    ∃ answer next, self.rsQueryId id = some (answer, next) ∧ Holds next residents ∧
      next.wild = self.wild ∧ Finds ⟨self, residents⟩ answer (.queryId id) := by
  obtain ⟨all, links, own⟩ := holds.linked
  have tells : ∀ l ∈ all, objCompare64 (self.mem.objKey64 l.obj) id = 0 ↔
      self.mem.objKey64 l.obj = id := by
    intro l inside
    rw [objCompare64_eq_zero]
    exact ⟨keeps.1 l.obj (holds.resident_of_link own inside).1, congrArg _⟩
  obtain ⟨answer, next, looked, same, still, only, found⟩ := links.lookup64
    (holds.anchored own) id tells fun long => own.rehashKeeps (keeps.2 long)
  obtain ⟨nextMem, nextTab⟩ := next
  cases same
  refine ⟨answer, { self with mNameTab := nextTab }, ?_, holds.queried still own, rfl,
    fun rs answered => ?_, fun nonzero rs member has => ?_⟩
  · unfold rsQueryId
    rw [looked]
    rfl
  · obtain ⟨l, inside, has, rfl⟩ := only rs answered
    exact ⟨(holds.resident_of_link own inside).1, has⟩
  · have carried : numbered self.mem rs = true := decide_eq_true (has ▸ nonzero)
    exact found (.chain rs rs)
      ((own _).mpr ⟨rs, member, mem_linksOf.mpr (Or.inr ⟨carried, rfl⟩)⟩) has
        (congrArg (objHash64 _) has)

private theorem Holds.queryName (holds : Holds self residents) {name : CStr}
    (keeps : Keeps ⟨self, residents⟩ (.queryName name)) :
    ∃ answer next, self.rsQueryName name = some (answer, next) ∧ Holds next residents ∧
      next.wild = self.wild ∧ Finds ⟨self, residents⟩ answer (.queryName name) := by
  obtain ⟨all, links, own⟩ := holds.linked
  obtain ⟨answer, next, looked, same, still, only, found⟩ := links.lookupStr
    (holds.anchored own) name fun long => own.rehashKeeps (keeps long)
  obtain ⟨nextMem, nextTab⟩ := next
  cases same
  refine ⟨answer, { self with mNameTab := nextTab }, ?_, holds.queried still own, rfl,
    fun rs answered => ?_, fun nonempty rs member has => ?_⟩
  · unfold rsQueryName
    rw [looked]
    rfl
  · obtain ⟨l, inside, has, rfl⟩ := only rs answered
    exact ⟨(holds.resident_of_link own inside).1, has⟩
  · have carried : RsContainer.named self.mem rs = true := decide_eq_true (has ▸ nonempty)
    exact found (.keystr rs)
      ((own _).mpr ⟨rs, member, mem_linksOf.mpr (Or.inl ⟨carried, rfl⟩)⟩) has
        (congrArg (fun key : CStr => objHashStrfn _ key.bytes) has)

theorem step_of_holds {state : Tracked} {op : Op} (holds : Holds state.self state.residents)
    (legal : Legal state op) (keeps : Keeps state op) :
    ∃ next answer, step state op = some (next, answer) ∧ Finds state answer op ∧
      Holds next.self next.residents ∧ next.self.wild = state.self.wild := by
  cases op with
  | add rs =>
      obtain ⟨next, added, still, same⟩ := holds.add legal.1 legal.2 keeps.1 keeps.2
      exact ⟨⟨next, joined rs state.residents⟩, none, by simp only [step, added, Option.map_some],
        trivial, still, same⟩
  | addIndex rs idx =>
      obtain ⟨next, added, still, same⟩ := holds.addIndex legal.1 keeps.1 legal.2.2 keeps.2
      exact ⟨⟨next, joined rs state.residents⟩, none, by simp only [step, added, Option.map_some],
        trivial, still, same⟩
  | remove rs =>
      obtain ⟨idx, index, own⟩ := legal
      obtain ⟨next, removed, still, same⟩ := holds.remove index own keeps.1 keeps.2
      exact ⟨⟨next, state.residents.filter (· ≠ rs)⟩, none,
        by simp only [step, removed, Option.map_some], trivial, still, same⟩
  | resize max =>
      have kept : state.self.rsResizeContainer max = some state.self := if_pos keeps
      exact ⟨state, none, by simp only [step, kept, Option.map_some], trivial, holds, rfl⟩
  | queryId id =>
      obtain ⟨answer, next, queried, still, same, finds⟩ := holds.queryId keeps
      exact ⟨⟨next, state.residents⟩, answer, by simp only [step, queried, Option.map_some], finds,
        still, same⟩
  | queryName name =>
      obtain ⟨answer, next, queried, still, same, finds⟩ := holds.queryName keeps
      exact ⟨⟨next, state.residents⟩, answer, by simp only [step, queried, Option.map_some], finds,
        still, same⟩

/-- In every run that meets `Keeps` the container is consistent, every further call is defined
and finds, and the constructor alone has written behind the array, if it has one. -/
theorem container_right {max : Nat} {state : Tracked}
    (reached : machine.Reached (Initial max) (fun state op => Legal state op ∧ Keeps state op)
      state) :
    Consistent state ∧ (state.self.wild = false ↔ max = 0) ∧
      ∀ op, Legal state op → Keeps state op → ∃ next answer, step state op = some (next, answer) ∧
        Finds state answer op ∧ Consistent next := by
  have preserves : machine.Preserves (fun state op => Legal state op ∧ Keeps state op)
      fun state => Holds state.self state.residents ∧ (state.self.wild = false ↔ max = 0) := by
    rintro state op next answer ⟨holds, wild⟩ ⟨legal, keeps⟩ stepped
    obtain ⟨after, result, taken, -, still, same⟩ := step_of_holds holds legal keeps
    have equal := taken.symm.trans stepped
    cases equal
    exact ⟨still, same ▸ wild⟩
  have starts : ∀ start, Initial max start →
      Holds start.self start.residents ∧ (start.self.wild = false ↔ max = 0) := by
    rintro ⟨self, residents⟩ ⟨none, mem, rsIdx, same⟩
    change residents = [] at none
    change self = _ at same
    subst none same
    refine ⟨holds_new mem rsIdx max, ?_⟩
    change (new mem rsIdx max).wild = false ↔ _
    rw [new_eq]
    exact decide_eq_false_iff_not.trans (Nat.not_lt.trans Nat.le_zero)
  obtain ⟨holds, wild⟩ := preserves.reached starts reached
  refine ⟨⟨holds.count, holds.placed⟩, wild, fun op legal keeps => ?_⟩
  obtain ⟨next, answer, stepped, finds, still, -⟩ := step_of_holds holds legal keeps
  exact ⟨next, answer, stepped, finds, still.count, still.placed⟩

/-- Resources with the ids of their numbers; the even ones have no name. -/
def resources : ObjMem where
  objKey64 := fun rs => BitVec.ofNat 64 rs
  objKeystr := fun rs => if rs % 2 = 0 then ⟨[], CStr.ended_nil⟩ else ⟨[65], by decide⟩
  mChain := fun _ => false
  olPtr := fun _ => none

def built (max : Nat) : Tracked := ⟨new resources (fun _ => none) max, []⟩

/-- A second resource. -/
theorem container_right_added :
    ∃ state next answer, machine.Reached (Initial 2)
        (fun state op => Legal state op ∧ Keeps state op) state ∧ state.residents = [1] ∧
      step state (.add 3) = some (next, answer) ∧ Consistent next := by
  obtain ⟨state, stepped, residents, room, chain, ptr, name, few⟩ : ∃ state,
      step (built 2) (.add 1) = some (state, none) ∧ state.residents = [1] ∧
      state.self.rsCnt < state.self.rsArrElm ∧ state.self.mem.mChain 3 = false ∧
      state.self.mem.olPtr 3 = none ∧
      named state.self.mem 3 = true ∧ state.self.mNameTab.dhElmCnt + 2 < 2 ^ 31 :=
    ⟨_, rfl, rfl, by decide, rfl, rfl, rfl, by decide⟩
  have first : Legal (built 2) (.add 1) ∧ Keeps (built 2) (.add 1) :=
    ⟨⟨by decide, fun _ => rfl, fun _ => rfl⟩, by decide, by decide⟩
  have reached : machine.Reached (Initial 2)
      (fun state op => Legal state op ∧ Keeps state op) state :=
    (Machine.reached_start ⟨rfl, resources, fun _ => none, rfl⟩).step first stepped
  obtain ⟨next, answer, added, -, after⟩ := (container_right reached).2.2 (.add 3)
    ⟨room, fun _ => chain, fun _ => ptr⟩ ⟨fun _ => name, few⟩
  exact ⟨state, next, answer, reached, residents, added, after⟩

private theorem addIndex_runs : (machine.run (built 2) [.addIndex 1 0]).isSome = true := by
  decide +kernel

private theorem resize_runs : (machine.run (built 2) [.add 1, .resize 4]).isSome = true := by
  decide +kernel

private theorem addUnnumbered_runs : (machine.run (built 2) [.add 0]).isSome = true := by
  decide +kernel

/-- The constructor writes behind its array, an indexed resource is not counted, a resource with an
id alone cannot be added, one without a name and an id cannot be removed, and the array is gone
after the container has grown. -/
theorem exists_container_not_right :
    (built 2).self.wild = true ∧
    ¬ Consistent (machine.final _ _ addIndex_runs) ∧
    step (built 2) (.add 2) = none ∧
    step (machine.final _ _ addUnnumbered_runs) (.remove 0) = none ∧
    ¬ Consistent (machine.final _ _ resize_runs) := by
  refine ⟨by decide +kernel, ?_, ?_, ?_, ?_⟩
  · exact fun consistent => absurd consistent.1 (by decide +kernel)
  · exact Option.isNone_iff_eq_none.mp (by decide +kernel)
  · exact Option.isNone_iff_eq_none.mp (by decide +kernel)
  · exact fun consistent => absurd consistent.1 (by decide +kernel)

end RsContainer

end Tvntd
