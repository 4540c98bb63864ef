import Tvntd.Cpptype.DHashObjRun

/-! # The submodules of a module

`common/di/module.cpp`: a module indexes its submodules by name and by id in one
`DHashObj`, and by position in `m_dep_idx`. A registration links the submodule
by its string key and then its `m_id_link` by its 64-bit key, so both links are
anchored; an unregistration takes both out again.

A registration marks the submodule with `st_register` and a marked module is
never registered again, which an unregistration does not undo.
-/

namespace Tvntd

open Function

/-- An allocated `m_dep_idx`. -/
structure DepIdx where
  size : Nat
  slots : Nat → Option Obj

/-- The fields of a module that index its submodules, and the fields of the submodules that
registration uses. The link `m_id_link` of a submodule has the number of the submodule. -/
structure Module where
  mem : ObjMem
  mState : Obj → Bool
  mIndex : Obj → Option Nat
  mNameTab : Option (Dhash Link)
  mDepIdx : Option DepIdx
  mDepCnt : Nat
  mDepSiz : Nat

namespace Module

/-- `Module(subs[])` before it registers its `dep_cnt` submodules. -/
def ofSubs (mem : ObjMem) (mState : Obj → Bool) (depCnt : Nat) : Module where
  mem := mem
  mState := mState
  mIndex := fun _ => none
  mNameTab := some (dhashInit (depCnt * 2 * 2))
  mDepIdx := some ⟨depCnt * 2, fun _ => none⟩
  mDepCnt := 0
  mDepSiz := depCnt * 2

/-- A write to `m_dep_idx`; outside of the allocation it is undefined. -/
def depSet (depIdx : Option DepIdx) (idx : Nat) (mod : Option Obj) : Option DepIdx :=
  depIdx.bind fun arr =>
    if idx < arr.size then some { arr with slots := update arr.slots idx mod } else none

/-- The growth of `m_dep_idx` in `mod_register`. -/
def depGrow (self : Module) : Option Module :=
  if self.mDepCnt + 1 = self.mDepSiz then
    (intValue (self.mDepSiz * 2)).bind fun siz =>
      self.mDepIdx.map fun arr =>
        { self with
          mDepSiz := siz.toNat
          mDepIdx := some ⟨siz.toNat, fun i => if i < self.mDepCnt then arr.slots i else none⟩ }
  else some self

def modRegister (self : Module) (mod : Obj) : Option Module :=
  if self.mState mod then some self
  else
    self.mNameTab.bind fun tab =>
      (DHashObj.insertKeystr ⟨self.mem, tab⟩ mod).bind fun byName =>
        (byName.2.insertChain mod mod).bind fun byId =>
          (depGrow { self with
            mState := update self.mState mod true
            mem := byId.2.mem
            mNameTab := some byId.2.mTab }).bind fun grown =>
              (depSet grown.mDepIdx grown.mDepCnt (some mod)).map fun arr =>
                { grown with
                  mIndex := update grown.mIndex mod (some grown.mDepCnt)
                  mDepIdx := some arr
                  mDepCnt := grown.mDepCnt + 1 }

def modUnregister (self : Module) (mod : Obj) : Option Module :=
  match self.mNameTab with
  | none => some self
  | some tab =>
      (DHashObj.removeObj ⟨self.mem, tab⟩ mod).bind fun unnamed =>
        (unnamed.removeChain mod mod).bind fun unlinked =>
          let self := { self with mem := unlinked.mem, mNameTab := some unlinked.mTab }
          match self.mIndex mod with
          | none => some self
          | some idx =>
              if idx < self.mDepCnt ∧ self.mDepIdx.bind (fun arr => arr.slots idx) = some mod then
                (depSet self.mDepIdx idx none).map fun arr => { self with mDepIdx := some arr }
              else none

/-- `mod_get(uint32_t)`: the id is widened to a 64-bit key. -/
def modGetId (cmp64 : Key64 → Key64 → Int) (self : Module) (id : BitVec 32) :
    Option (Option Obj × Module) :=
  match self.mNameTab with
  | none => some (none, self)
  | some tab =>
      (DHashObj.lookup64 cmp64 ⟨self.mem, tab⟩ (id.setWidth 64)).map fun result =>
        (result.1, { self with mNameTab := some result.2.mTab })

def modGetName (self : Module) (name : CStr) : Option (Option Obj × Module) :=
  match self.mNameTab with
  | none => some (none, self)
  | some tab =>
      (DHashObj.lookupStr ⟨self.mem, tab⟩ name).map fun result =>
        (result.1, { self with mNameTab := some result.2.mTab })

/-! ## Runs -/

inductive Op where
  | register (mod : Obj)
  | unregister (mod : Obj)
  | getId (id : BitVec 32)
  | getName (name : CStr)

/-- A module and the submodules registered by the calls so far. -/
structure Tracked where
  self : Module
  members : List Obj

def step (cmp64 : Key64 → Key64 → Int) (state : Tracked) : Op → Option (Tracked × Option Obj)
  | .register mod =>
      (state.self.modRegister mod).map fun next =>
        (⟨next, if mod ∈ state.members then state.members else mod :: state.members⟩, none)
  | .unregister mod =>
      (state.self.modUnregister mod).map fun next =>
        (⟨next, state.members.filter (· ≠ mod)⟩, none)
  | .getId id =>
      (state.self.modGetId cmp64 id).map fun result => (⟨result.2, state.members⟩, result.1)
  | .getName name =>
      (state.self.modGetName name).map fun result => (⟨result.2, state.members⟩, result.1)

def machine (cmp64 : Key64 → Key64 → Int) : Machine Tracked Op (Option Obj) := ⟨step cmp64⟩

/-- A module built with at least one submodule, before it registers them. The 64-bit key of a
module is its 32-bit id. -/
def Initial (state : Tracked) : Prop :=
  state.members = [] ∧ ∃ mem mState depCnt, 0 < depCnt ∧
    (∀ mod, ∃ id : BitVec 32, mem.objKey64 mod = id.setWidth 64) ∧
    state.self = ofSubs mem mState depCnt

/-- A module that is not marked is registered while its links are free; a registered submodule
is unregistered. -/
def Legal (state : Tracked) : Op → Prop
  | .register mod => state.self.mState mod = false →
      state.self.mem.mChain mod = false ∧ state.self.mem.olPtr mod = none
  | .unregister mod => mod ∈ state.members
  | .getId _ | .getName _ => True

/-- In the next bucket array the name hash of every registered submodule agrees with its id, and
the size of that array is an `int`. -/
def RehashKeeps (state : Tracked) (tab : Dhash Link) : Prop :=
  tab.dhBkSize < 2 ^ 30 ∧ ∀ mod ∈ state.members,
    objHashStrfn (1 + tab.dhBkSize * 2) (state.self.mem.objKeystr mod).bytes =
      objHash64 (1 + tab.dhBkSize * 2) (state.self.mem.objKey64 mod)

/-- A marked module that is registered is a submodule already, the sizes stay `int`s, and a
search that rehashes keeps every link in its slot. -/
def Keeps (state : Tracked) : Op → Prop
  | .register mod =>
      (state.self.mState mod = true → mod ∈ state.members) ∧
        ∀ tab, state.self.mNameTab = some tab → tab.dhElmCnt + 2 < 2 ^ 31 ∧
          (state.self.mDepCnt + 1 = state.self.mDepSiz → state.self.mDepSiz < 2 ^ 30)
  | .unregister _ => True
  | .getId id => ∀ tab, state.self.mNameTab = some tab →
      LongWalk (DHashObj.keyed state.self.mem (id.setWidth 64))
        (tab.dhBucket (objHash64 tab.dhBkSize (id.setWidth 64))) → RehashKeeps state tab
  | .getName name => ∀ tab, state.self.mNameTab = some tab →
      LongWalk (DHashObj.named state.self.mem name)
        (tab.dhBucket (objHashStrfn tab.dhBkSize name.bytes)) → RehashKeeps state tab

/-- `mod_get` returns only registered submodules with the id or the name, and it returns one if
there is one. -/
def Finds (state : Tracked) (answer : Option Obj) : Op → Prop
  | .getId id =>
      (∀ mod, answer = some mod →
        mod ∈ state.members ∧ state.self.mem.objKey64 mod = id.setWidth 64) ∧
      ∀ mod ∈ state.members, state.self.mem.objKey64 mod = id.setWidth 64 → answer.isSome
  | .getName name =>
      (∀ mod, answer = some mod →
        mod ∈ state.members ∧ state.self.mem.objKeystr mod = name) ∧
      ∀ mod ∈ state.members, state.self.mem.objKeystr mod = name → answer.isSome
  | .register _ | .unregister _ => True

/-! ## The two indexes of the registered submodules -/

/-- The links of the name table are the two links of every registered submodule. -/
def LinksOf (members : List Obj) (all : List Linked) : Prop :=
  ∀ l, l ∈ all ↔ ∃ mod ∈ members, l = .keystr mod ∨ l = .chain mod mod

/-- Every registered submodule is marked and stands at its index. -/
structure Indexed (dep : Module) (members : List Obj) : Prop where
  marked : ∀ mod ∈ members, dep.mState mod = true
  room : dep.mDepCnt < dep.mDepSiz
  allocated : ∃ slots, dep.mDepIdx = some ⟨dep.mDepSiz, slots⟩ ∧
    ∀ mod ∈ members, ∃ idx, dep.mIndex mod = some idx ∧ idx < dep.mDepCnt ∧
      slots idx = some mod

structure Holds (dep : Module) (members : List Obj) : Prop where
  indexed : Indexed dep members
  linked : ∃ tab all, dep.mNameTab = some tab ∧ DHashObj.Holds ⟨dep.mem, tab⟩ all ∧
    LinksOf members all

theorem holds_ofSubs (mem : ObjMem) (mState : Obj → Bool) {depCnt : Nat} (positive : 0 < depCnt) :
    Holds (ofSubs mem mState depCnt) [] where
  indexed :=
    { marked := by simp
      room := by
        change 0 < depCnt * 2
        omega
      allocated := ⟨_, rfl, by simp⟩ }
  linked := ⟨_, [], rfl, DHashObj.holds_init mem (by omega), by simp [LinksOf]⟩

/-- After a registration found room, `m_dep_idx` has a free slot at its count. -/
theorem depGrow_eq (self : Module) {slots : Nat → Option Obj}
    (allocated : self.mDepIdx = some ⟨self.mDepSiz, slots⟩) (room : self.mDepCnt < self.mDepSiz)
    (fits : self.mDepCnt + 1 = self.mDepSiz → self.mDepSiz < 2 ^ 30) :
    ∃ siz grown, depGrow self = some { self with mDepSiz := siz, mDepIdx := some ⟨siz, grown⟩ } ∧
      self.mDepCnt + 1 < siz ∧ ∀ i < self.mDepCnt, grown i = slots i := by
  unfold depGrow
  by_cases full : self.mDepCnt + 1 = self.mDepSiz
  · have siz : ((self.mDepSiz : Int) * 2).toNat = self.mDepSiz * 2 := by omega
    have small := fits full
    refine ⟨self.mDepSiz * 2, fun i => if i < self.mDepCnt then slots i else none, ?_, by omega,
      fun i inside => if_pos inside⟩
    rw [if_pos full, intValue_of_lt (by omega), Option.bind_some, allocated, Option.map_some, siz]
  · refine ⟨self.mDepSiz, slots, ?_, by omega, fun _ _ => rfl⟩
    rw [if_neg full, ← allocated]

theorem linksOf_register {members : List Obj} {all : List Linked} (links : LinksOf members all)
    (mod : Obj) : LinksOf (mod :: members) (all ++ [.keystr mod] ++ [.chain mod mod]) := by
  intro l
  rw [List.mem_append, List.mem_append, links l, List.mem_singleton, List.mem_singleton]
  constructor
  · rintro ((⟨other, member, own⟩ | name) | id)
    · exact ⟨other, List.mem_cons_of_mem _ member, own⟩
    · exact ⟨mod, List.mem_cons_self, Or.inl name⟩
    · exact ⟨mod, List.mem_cons_self, Or.inr id⟩
  · rintro ⟨other, member, own⟩
    rcases List.mem_cons.mp member with rfl | inside
    · rcases own with name | id
      · exact Or.inl (Or.inr name)
      · exact Or.inr id
    · exact Or.inl (Or.inl ⟨other, inside, own⟩)

theorem Holds.register {self : Module} {members : List Obj} (holds : Holds self members)
    {mod : Obj} (unmarked : self.mState mod = false) (free : self.mem.mChain mod = false)
    (apart : self.mem.olPtr mod = none)
    (fits : ∀ tab, self.mNameTab = some tab → tab.dhElmCnt + 2 < 2 ^ 31 ∧
      (self.mDepCnt + 1 = self.mDepSiz → self.mDepSiz < 2 ^ 30)) :
    ∃ next, self.modRegister mod = some next ∧ Holds next (mod :: members) := by
  obtain ⟨tab, all, table, links, own⟩ := holds.linked
  obtain ⟨slots, allocated, placed⟩ := holds.indexed.allocated
  obtain ⟨counts, sizes⟩ := fits tab table
  obtain ⟨_, byName, named, heldMem, named_⟩ :=
    links.insertKeystr free (by change tab.dhElmCnt + 1 < _; omega)
  have counted : byName.mTab.dhElmCnt + 1 < 2 ^ 31 := by
    have before := links.count
    have after := named_.count
    rw [List.length_append, List.length_singleton] at after
    change tab.dhElmCnt = _ at before
    omega
  obtain ⟨_, byId, ided, idMem, both⟩ := named_.insertChain
    (by rw [heldMem]; exact apart) (by rw [heldMem]; exact DHashObj.mChain_hold self.mem mod) counted
  obtain ⟨siz, grown, grew, spare, kept⟩ := depGrow_eq
    { self with
      mState := update self.mState mod true
      mem := byId.mem
      mNameTab := some byId.mTab } allocated holds.indexed.room sizes
  have inside : self.mDepCnt < siz := Nat.lt_of_succ_lt spare
  refine ⟨{ self with
    mState := update self.mState mod true
    mem := byId.mem
    mNameTab := some byId.mTab
    mDepSiz := siz
    mIndex := update self.mIndex mod (some self.mDepCnt)
    mDepIdx := some ⟨siz, update grown self.mDepCnt (some mod)⟩
    mDepCnt := self.mDepCnt + 1 }, ?_, ?_, byId.mTab, _, rfl, both, linksOf_register own mod⟩
  · unfold modRegister
    rw [unmarked, table]
    simp only [Bool.false_eq_true, if_false, Option.bind_some, named, ided, grew, depSet,
      if_pos inside, Option.map_some]
  · constructor
    · intro other member
      rcases List.mem_cons.mp member with rfl | before
      · exact update_self _ _ _
      · by_cases same : other = mod
        · rw [same]
          exact update_self _ _ _
        · exact (update_of_ne same _ _).trans (holds.indexed.marked other before)
    · exact spare
    · refine ⟨_, rfl, ?_⟩
      intro other member
      by_cases same : other = mod
      · subst same
        exact ⟨self.mDepCnt, update_self _ _ _, Nat.lt_succ_self _,
          update_self _ _ _⟩
      · have before : other ∈ members := (List.mem_cons.mp member).resolve_left same
        obtain ⟨idx, indexed, below, stands⟩ := placed other before
        refine ⟨idx, (update_of_ne same _ _).trans indexed, Nat.lt_succ_of_lt below, ?_⟩
        rw [← stands, ← kept idx below]
        exact update_of_ne (Nat.ne_of_lt below) _ _

theorem linksOf_unregister {members : List Obj} {all : List Linked} (links : LinksOf members all)
    (nodup : all.Nodup) (mod : Obj) :
    LinksOf (members.filter (· ≠ mod)) ((all.erase (.keystr mod)).erase (.chain mod mod)) := by
  intro l
  rw [(nodup.erase _).mem_erase_iff, nodup.mem_erase_iff, links l]
  constructor
  · rintro ⟨notId, notName, other, member, own⟩
    have differs : other ≠ mod := by
      rintro rfl
      rcases own with name | id
      · exact notName name
      · exact notId id
    exact ⟨other, List.mem_filter.mpr ⟨member, decide_eq_true differs⟩, own⟩
  · rintro ⟨other, member, own⟩
    obtain ⟨before, kept⟩ := List.mem_filter.mp member
    have differs : other ≠ mod := of_decide_eq_true kept
    refine ⟨?_, ?_, other, before, own⟩
    · rcases own with rfl | rfl
      · exact fun same => Linked.noConfusion same
      · exact fun same => differs (Linked.chain.inj same).1
    · rcases own with rfl | rfl
      · exact fun same => differs (Linked.keystr.inj same)
      · exact fun same => Linked.noConfusion same

theorem Holds.unregister {self : Module} {members : List Obj} (holds : Holds self members)
    {mod : Obj} (member : mod ∈ members) :
    ∃ next, self.modUnregister mod = some next ∧ Holds next (members.filter (· ≠ mod)) := by
  obtain ⟨tab, all, table, links, own⟩ := holds.linked
  obtain ⟨slots, allocated, placed⟩ := holds.indexed.allocated
  obtain ⟨idx, indexed, below, stands⟩ := placed mod member
  have byName : Linked.keystr mod ∈ all := (own _).mpr ⟨mod, member, Or.inl rfl⟩
  have byId : Linked.chain mod mod ∈ all := (own _).mpr ⟨mod, member, Or.inr rfl⟩
  obtain ⟨unnamed, dropped, -, rest⟩ := links.removeObj byName rfl
  have left : Linked.chain mod mod ∈ all.erase (.keystr mod) :=
    (List.mem_erase_of_ne (by exact fun same => Linked.noConfusion same)).mpr byId
  obtain ⟨unlinked, taken, -, still⟩ := rest.removeChain left
  have inside : idx < self.mDepSiz := Nat.lt_trans below holds.indexed.room
  refine ⟨{ self with
    mem := unlinked.mem
    mNameTab := some unlinked.mTab
    mDepIdx := some ⟨self.mDepSiz, update slots idx none⟩ }, ?_, ?_,
    unlinked.mTab, _, rfl, still,
    linksOf_unregister own (List.Nodup.of_map _ links.chained.nodup_all) mod⟩
  · unfold modUnregister
    simp only [table, dropped, taken, Option.bind_some, indexed, allocated, stands, below, and_self,
      if_true, depSet, if_pos inside, Option.map_some]
  · constructor
    · intro other kept
      exact holds.indexed.marked other (List.mem_filter.mp kept).1
    · exact holds.indexed.room
    · refine ⟨_, rfl, ?_⟩
      intro other kept
      obtain ⟨before, differs⟩ := List.mem_filter.mp kept
      obtain ⟨at_, same, under, holdsOther⟩ := placed other before
      have apart : at_ ≠ idx := by
        rintro rfl
        rw [stands, Option.some.injEq] at holdsOther
        exact of_decide_eq_true differs holdsOther.symm
      exact ⟨at_, same, under, (update_of_ne apart _ _).trans holdsOther⟩

/-! ## Lookups -/

/-- Registered submodules are anchored: their names are linked at `m_chain`. -/
theorem LinksOf.anchored {members : List Obj} {all : List Linked} (links : LinksOf members all)
    {mem : ObjMem} {tab : Dhash Link} (holds : DHashObj.Holds ⟨mem, tab⟩ all) :
    DHashObj.Anchored mem all := by
  intro l inside
  obtain ⟨mod, member, own⟩ := (links l).mp inside
  have byName : Linked.keystr mod ∈ all := (links _).mpr ⟨mod, member, Or.inl rfl⟩
  have held : mem.mChain mod = true := holds.refers _ byName
  rcases own with rfl | rfl
  · exact held
  · exact held

theorem LinksOf.rehashKeeps {state : Tracked} {tab : Dhash Link} {all : List Linked}
    (links : LinksOf state.members all) (keeps : RehashKeeps state tab) :
    DHashObj.RehashKeeps ⟨state.self.mem, tab⟩ all := by
  refine ⟨keeps.1, ?_⟩
  intro l inside
  obtain ⟨mod, member, own⟩ := (links l).mp inside
  rcases own with rfl | rfl
  · rfl
  · exact keeps.2 mod member

theorem LinksOf.obj_mem {members : List Obj} {all : List Linked} (links : LinksOf members all)
    {l : Linked} (inside : l ∈ all) : l.obj ∈ members := by
  obtain ⟨mod, member, own⟩ := (links l).mp inside
  rcases own with rfl | rfl
  · exact member
  · exact member

theorem Holds.mNameTab {dep : Module} {members : List Obj} (holds : Holds dep members)
    {tab : Dhash Link} {all : List Linked} (table : DHashObj.Holds ⟨dep.mem, tab⟩ all)
    (links : LinksOf members all) : Holds { dep with mNameTab := some tab } members where
  indexed := ⟨holds.indexed.marked, holds.indexed.room, holds.indexed.allocated⟩
  linked := ⟨tab, all, rfl, table, links⟩

variable {cmp64 : Key64 → Key64 → Int}

/-- The links of registered submodules alone make the lookup by id find. -/
theorem getId_finds {state : Tracked} {tab : Dhash Link} {all : List Linked} {id : BitVec 32}
    (tells : ∀ mod ∈ state.members, cmp64 (state.self.mem.objKey64 mod) (id.setWidth 64) = 0 ↔
      state.self.mem.objKey64 mod = id.setWidth 64)
    (table : state.self.mNameTab = some tab) (links : DHashObj.Holds ⟨state.self.mem, tab⟩ all)
    (own : LinksOf state.members all) (keeps : Keeps state (.getId id)) :
    ∃ answer next, modGetId cmp64 state.self id =
        some (answer, { state.self with mNameTab := some next }) ∧
      DHashObj.Holds ⟨state.self.mem, next⟩ all ∧ Finds state answer (.getId id) := by
  obtain ⟨answer, next, looked, same, still, only, found⟩ := links.lookup64
    (own.anchored links) (id.setWidth 64) (fun l inside => tells l.obj (own.obj_mem inside))
    fun long => own.rehashKeeps (keeps tab table long)
  obtain ⟨nextMem, nextTab⟩ := next
  cases same
  refine ⟨answer, nextTab, ?_, still, ?_, ?_⟩
  · simp only [modGetId, table, looked, Option.map_some]
  · intro mod answered
    obtain ⟨l, inside, has, rfl⟩ := only mod answered
    exact ⟨own.obj_mem inside, has⟩
  · intro mod member has
    exact found (.chain mod mod) ((own _).mpr ⟨mod, member, Or.inr rfl⟩) has
      (congrArg (objHash64 _) has)

theorem getName_finds {state : Tracked} {tab : Dhash Link} {all : List Linked} {name : CStr}
    (table : state.self.mNameTab = some tab) (links : DHashObj.Holds ⟨state.self.mem, tab⟩ all)
    (own : LinksOf state.members all) (keeps : Keeps state (.getName name)) :
    ∃ answer next, modGetName state.self name =
        some (answer, { state.self with mNameTab := some next }) ∧
      DHashObj.Holds ⟨state.self.mem, next⟩ all ∧ Finds state answer (.getName name) := by
  obtain ⟨answer, next, looked, same, still, only, found⟩ := links.lookupStr
    (own.anchored links) name fun long => own.rehashKeeps (keeps tab table long)
  obtain ⟨nextMem, nextTab⟩ := next
  cases same
  refine ⟨answer, nextTab, ?_, still, ?_, ?_⟩
  · simp only [modGetName, table, looked, Option.map_some]
  · intro mod answered
    obtain ⟨l, inside, has, rfl⟩ := only mod answered
    exact ⟨own.obj_mem inside, has⟩
  · intro mod member has
    exact found (.keystr mod) ((own _).mpr ⟨mod, member, Or.inl rfl⟩) has
      (congrArg (fun key : CStr => objHashStrfn _ key.bytes) has)

/-- One call that meets `Keeps` does not abort, finds, and keeps both indexes. -/
theorem step_of_holds {state : Tracked} {op : Op}
    (tells : ∀ mod ∈ state.members, ∀ id : BitVec 32,
      cmp64 (state.self.mem.objKey64 mod) (id.setWidth 64) = 0 ↔
        state.self.mem.objKey64 mod = id.setWidth 64) (holds : Holds state.self state.members) (legal : Legal state op)
    (keeps : Keeps state op) :
    ∃ next answer, (machine cmp64).step state op = some (next, answer) ∧
      Holds next.self next.members ∧ Finds state answer op := by
  cases op with
  | register mod =>
      cases marked : state.self.mState mod with
      | true =>
          have member := keeps.1 marked
          refine ⟨state, none, ?_, holds, trivial⟩
          simp only [machine, step, modRegister, marked, if_true, Option.map_some, if_pos member]
      | false =>
          obtain ⟨free, apart⟩ := legal marked
          have fresh : mod ∉ state.members := by
            intro member
            rw [holds.indexed.marked mod member] at marked
            cases marked
          obtain ⟨next, registered, still⟩ := holds.register marked free apart keeps.2
          refine ⟨⟨next, mod :: state.members⟩, none, ?_, still, trivial⟩
          simp only [machine, step, registered, Option.map_some, if_neg fresh]
  | unregister mod =>
      obtain ⟨next, unregistered, still⟩ := holds.unregister legal
      exact ⟨⟨next, _⟩, none, by simp only [machine, step, unregistered, Option.map_some], still,
        trivial⟩
  | getId id =>
      obtain ⟨tab, all, table, links, own⟩ := holds.linked
      obtain ⟨answer, next, got, still, finds⟩ :=
        getId_finds (fun mod member => tells mod member id) table links own keeps
      exact ⟨⟨{ state.self with mNameTab := some next }, state.members⟩, answer,
        by simp only [machine, step, got, Option.map_some], holds.mNameTab still own, finds⟩
  | getName name =>
      obtain ⟨tab, all, table, links, own⟩ := holds.linked
      obtain ⟨answer, next, got, still, finds⟩ := getName_finds table links own keeps
      exact ⟨⟨{ state.self with mNameTab := some next }, state.members⟩, answer,
        by simp only [machine, step, got, Option.map_some], holds.mNameTab still own, finds⟩

theorem holds_of_reached (exactly : ∀ own key, cmp64 own key = 0 ↔ own = key) {state : Tracked}
    (reached : (machine cmp64).Reached Initial (fun state op => Legal state op ∧ Keeps state op)
      state) : Holds state.self state.members := by
  have preserves : (machine cmp64).Preserves (fun state op => Legal state op ∧ Keeps state op)
      fun state => Holds state.self state.members := by
    intro state op next answer holds guarded stepped
    obtain ⟨after, result, taken, still, -⟩ :=
      step_of_holds (fun _ _ _ => exactly _ _) holds guarded.1 guarded.2
    rw [stepped, Option.some.injEq, Prod.mk.injEq] at taken
    exact taken.1 ▸ still
  refine preserves.reached ?_ reached
  · rintro ⟨self, members⟩ ⟨none, mem, mState, depCnt, positive, -, new⟩
    change members = [] at none
    change self = _ at new
    subst none new
    exact holds_ofSubs mem mState positive

end Module

/-! ## Every lookup finds -/

/-- In every run that meets `Keeps`, of one table as well as of a module with submodules, no
operation aborts, and every lookup finds a linked object with its key whenever one was linked
by the matching insertion. -/
theorem lookups_find {cmp64 : Key64 → Key64 → Int}
    (exactly : ∀ own key, cmp64 own key = 0 ↔ own = key) :
    (∀ state op, (DHashObj.machine cmp64).Reached DHashObj.Initial
        (fun state op => DHashObj.Legal state op ∧ DHashObj.Keeps state op) state →
      DHashObj.Legal state op → DHashObj.Keeps state op →
        ∃ next answer, (DHashObj.machine cmp64).step state op = some (next, answer) ∧
          DHashObj.Finds state answer op) ∧
    (∀ state op, (Module.machine cmp64).Reached Module.Initial
        (fun state op => Module.Legal state op ∧ Module.Keeps state op) state →
      Module.Legal state op → Module.Keeps state op →
        ∃ next answer, (Module.machine cmp64).step state op = some (next, answer) ∧
          Module.Finds state answer op) := by
  constructor
  · intro state op reached legal keeps
    have holds := DHashObj.holds_of_reached exactly reached
    obtain ⟨next, answer, stepped, -, finds⟩ := DHashObj.step_of_holds exactly holds legal keeps
    exact ⟨next, answer, stepped, finds⟩
  · intro state op reached legal keeps
    have holds := Module.holds_of_reached exactly reached
    obtain ⟨next, answer, stepped, -, finds⟩ :=
      Module.step_of_holds (fun _ _ _ => exactly _ _) holds legal keeps
    exact ⟨next, answer, stepped, finds⟩

/-- An exact comparison. -/
def exactCmp (own key : Key64) : Int := if own = key then 0 else 1

private theorem exactCmp_eq_zero (own key : Key64) : exactCmp own key = 0 ↔ own = key := by
  unfold exactCmp
  by_cases same : own = key
  · simp [same]
  · simp [same]

/-- Objects whose 64-bit keys are their numbers and whose string keys are empty. -/
def numbered : ObjMem where
  objKey64 := fun obj => BitVec.ofNat 64 obj
  objKeystr := fun _ => ⟨[], CStr.ended_nil⟩
  mChain := fun _ => false
  olPtr := fun _ => none

/-- A linked object is found by its key, and a registered submodule by its id. -/
theorem lookups_find_numbered :
    (∃ state next, (DHashObj.machine exactCmp).Reached DHashObj.Initial
        (fun state op => DHashObj.Legal state op ∧ DHashObj.Keeps state op) state ∧
      state.linked = [.key64 5] ∧
      (DHashObj.machine exactCmp).step state (.lookup64 5) = some (next, some 5)) ∧
    ∃ state next, (Module.machine exactCmp).Reached Module.Initial
        (fun state op => Module.Legal state op ∧ Module.Keeps state op) state ∧
      state.members = [0] ∧
      (Module.machine exactCmp).step state (.getId 0) = some (next, some 0) := by
  have finds := lookups_find exactCmp_eq_zero
  constructor
  · have begins : DHashObj.Initial ⟨⟨numbered, dhashInit 1⟩, []⟩ :=
      ⟨rfl, numbered, 1, Nat.one_pos, rfl⟩
    obtain ⟨state, stepped, linked, key, anchored, short⟩ : ∃ state,
        (DHashObj.machine exactCmp).step ⟨⟨numbered, dhashInit 1⟩, []⟩ (.insertKey64 5) =
          some (state, none) ∧ state.linked = [.key64 5] ∧ state.self.mem.objKey64 5 = 5 ∧
        state.self.mem.mChain 5 = true ∧
        (state.self.mTab.dhBucket (objHash64 state.self.mTab.dhBkSize 5)).length = 1 :=
      ⟨_, rfl, rfl, rfl, rfl, rfl⟩
    have legal : DHashObj.Legal ⟨⟨numbered, dhashInit 1⟩, []⟩ (.insertKey64 5) := rfl
    have keeps : DHashObj.Keeps ⟨⟨numbered, dhashInit 1⟩, []⟩ (.insertKey64 5) :=
      show (0 : Int) + 1 < 2 ^ 31 by decide
    have reached : (DHashObj.machine exactCmp).Reached DHashObj.Initial
        (fun state op => DHashObj.Legal state op ∧ DHashObj.Keeps state op) state :=
      (Machine.reached_start begins).step (And.intro legal keeps) stepped
    obtain ⟨next, answer, looked, only, found⟩ := finds.1 state (.lookup64 5) reached trivial
      ⟨by rw [linked]; exact List.forall_mem_singleton.mpr anchored, fun long =>
        absurd long.1 (by rw [short]; decide)⟩
    obtain ⟨obj, rfl⟩ := Option.isSome_iff_exists.mp
      (found 5 (Or.inl (linked ▸ List.mem_singleton_self _)) key)
    obtain ⟨-, l, member, rfl⟩ := only obj rfl
    rw [linked, List.mem_singleton] at member
    subst member
    exact ⟨state, next, reached, linked, looked⟩
  · have begins : Module.Initial
        ⟨Module.ofSubs { numbered with objKey64 := fun _ => 0 } (fun _ => false) 1, []⟩ :=
      ⟨rfl, _, _, 1, Nat.one_pos, fun _ => ⟨0, rfl⟩, rfl⟩
    obtain ⟨state, stepped, members, key, short⟩ : ∃ state, (Module.machine exactCmp).step
          ⟨Module.ofSubs { numbered with objKey64 := fun _ => 0 } (fun _ => false) 1, []⟩
          (.register 0) = some (state, none) ∧ state.members = [0] ∧
        state.self.mem.objKey64 0 = 0 ∧ state.self.mNameTab.map (fun tab =>
          (tab.dhBucket (objHash64 tab.dhBkSize 0)).length) = some 1 :=
      ⟨_, rfl, rfl, rfl, rfl⟩
    have legal : Module.Legal
        ⟨Module.ofSubs { numbered with objKey64 := fun _ => 0 } (fun _ => false) 1, []⟩
        (.register 0) := fun _ => ⟨rfl, rfl⟩
    have keeps : Module.Keeps
        ⟨Module.ofSubs { numbered with objKey64 := fun _ => 0 } (fun _ => false) 1, []⟩
        (.register 0) := by
      refine ⟨fun marked => absurd marked (by decide), ?_⟩
      intro tab table
      cases table
      exact ⟨by decide, by decide⟩
    have reached : (Module.machine exactCmp).Reached Module.Initial
        (fun state op => Module.Legal state op ∧ Module.Keeps state op) state :=
      (Machine.reached_start begins).step (And.intro legal keeps) stepped
    obtain ⟨next, answer, got, only, found⟩ := finds.2 state (.getId 0) reached trivial (by
      intro tab table long
      rw [table, Option.map_some, Option.some.injEq] at short
      exact absurd long.1 (by change ¬ 31 < (tab.dhBucket (objHash64 _ 0)).length; omega))
    obtain ⟨mod, rfl⟩ := Option.isSome_iff_exists.mp
      (found 0 (members ▸ List.mem_singleton_self _) key)
    obtain ⟨member, -⟩ := only mod rfl
    rw [members, List.mem_singleton] at member
    subst member
    exact ⟨state, next, reached, members, got⟩

/-- `32` numbered objects in a table of one bucket, and a lookup of the last. -/
def crowdedLookup : List DHashObj.Op := (List.range 32).map .insertKey64 ++ [.lookup64 31]

/-- The lookup finds the last object and moves the first one to the bucket of its name, where
its own lookup misses it. -/
theorem lookup64_loses_object :
    ∃ state next, (DHashObj.machine exactCmp).Reached DHashObj.Initial DHashObj.Legal state ∧
      .key64 0 ∈ state.linked ∧ state.self.mem.objKey64 0 = 0 ∧
      (DHashObj.machine exactCmp).step state (.lookup64 0) = some (next, none) := by
  have legal : (DHashObj.machine exactCmp).Meets DHashObj.Legal ⟨⟨numbered, dhashInit 1⟩, []⟩
      crowdedLookup := by decide +kernel
  have lost : ((DHashObj.machine exactCmp).run ⟨⟨numbered, dhashInit 1⟩, []⟩ crowdedLookup).map
      (fun final => (decide (.key64 0 ∈ final.1.linked),
        decide (final.1.self.mem.objKey64 0 = 0),
        ((DHashObj.machine exactCmp).step final.1 (.lookup64 0)).map Prod.snd)) =
      some (true, true, some none) := by decide +kernel
  obtain ⟨⟨state, outputs⟩, ran, facts⟩ := Option.map_eq_some_iff.mp lost
  simp only [Prod.mk.injEq, decide_eq_true_eq] at facts
  obtain ⟨linked, key, missed⟩ := facts
  obtain ⟨⟨next, answer⟩, stepped, nothing⟩ := Option.map_eq_some_iff.mp missed
  change answer = none at nothing
  subst nothing
  exact ⟨state, next, ⟨_, crowdedLookup, outputs, ⟨rfl, numbered, 1, Nat.one_pos, rfl⟩, legal, ran⟩,
    linked, key, stepped⟩

end Tvntd
