import Tvntd.Cpptype.DHashObjFind
import Tvntd.Cpptype.LruResident

/-! # `DHashObj` as the hash of a cache

A cache links its objects by `m_chain` only, by either key, and may meet any
comparison of 64-bit keys. Whatever slots the links sit in, a search that
returns keeps the objects of the table and finds one of them
(`DHashObj.Resides`).
-/

namespace Tvntd

open Chaining Function

namespace DHashObj

/-- The buckets hold exactly the `m_chain` links of these objects, and count them. -/
structure Resides (dh : DHashObj) (objs : List Obj) : Prop where
  positive : 0 < dh.mTab.dhBkSize
  chained : ∃ slot, (∀ link ∈ objs.map Link.chain, slot link < dh.mTab.dhBkSize) ∧
    Chained dh.mTab.dhBucket slot (objs.map Link.chain)
  count : dh.mTab.dhElmCnt = objs.length
  held : ∀ obj ∈ objs, dh.mem.mChain obj = true

variable {self next : DHashObj} {objs : List Obj} {obj : Obj}

theorem resides_init (mem : ObjMem) {size : Nat} (positive : 0 < size) :
    Resides ⟨mem, dhashInit size⟩ [] where
  positive := positive
  chained := ⟨fun _ => 0, fun _ none => (List.not_mem_nil none).elim, chained_empty _⟩
  count := rfl
  held := fun _ none => (List.not_mem_nil none).elim

theorem chain_injective : Function.Injective Link.chain := fun _ _ same => Link.chain.inj same

theorem Resides.nodup (resides : self.Resides objs) : objs.Nodup := by
  obtain ⟨slot, -, chained⟩ := resides.chained
  exact List.Nodup.of_map _ chained.nodup_all

theorem Resides.perm (resides : self.Resides objs) {other : List Obj} (perm : objs.Perm other) :
    self.Resides other where
  positive := resides.positive
  chained := by
    obtain ⟨slot, inside, chained⟩ := resides.chained
    have links := perm.map Link.chain
    exact ⟨slot, fun link member => inside link (links.mem_iff.mpr member), chained.perm links⟩
  count := by
    rw [resides.count, perm.length_eq]
  held := fun obj member => resides.held obj (perm.mem_iff.mpr member)

theorem Resides.linked_eq (resides : self.Resides objs) (member : obj ∈ objs) :
    self.mem.linked (.chain obj) = some (.obj obj) := by
  have held := resides.held obj member
  simp [ObjMem.linked, ObjMem.objCptr, ObjMem.chained, held]

/-! ## Insertions and removals -/

theorem Resides.insert (resides : self.Resides objs) (free : self.mem.mChain obj = false)
    {hashFn : HashFn Link} {index : Nat} {tab : Dhash Link}
    (inserted : dhashInsertElm self.mTab (.chain obj) hashFn = some (index, tab)) :
    Resides ⟨hold self.mem obj, tab⟩ (objs ++ [obj]) ∧ .chain obj ∈ tab.dhBucket index ∧
      tab.dhBkSize = self.mTab.dhBkSize := by
  obtain ⟨hashed, inside, fits⟩ := dhashInsertElm_some inserted
  rw [dhashInsertElm_eq hashed inside fits] at inserted
  cases inserted
  obtain ⟨slot, within, chained⟩ := resides.chained
  have fresh : obj ∉ objs := by
    intro member
    rw [resides.held obj member] at free
    cases free
  have freshLink : Link.chain obj ∉ objs.map Link.chain := by
    rw [List.mem_map_of_injective chain_injective]
    exact fresh
  have agrees : ∀ link ∈ objs.map Link.chain,
      update slot (.chain obj) index link = slot link := by
    intro link member
    have differs : link ≠ .chain obj := fun same => freshLink (same ▸ member)
    exact update_of_ne differs _ _
  have grown := (chained.congr agrees).append freshLink
  rw [update_self] at grown
  refine ⟨⟨resides.positive, ⟨update slot (.chain obj) index, ?_, ?_⟩, ?_, ?_⟩, ?_, rfl⟩
  · intro link member
    rw [List.map_append, List.mem_append, List.map_singleton, List.mem_singleton] at member
    by_cases own : link = .chain obj
    · rw [own, update_self]
      exact inside
    · rw [update_of_ne own]
      exact within link (member.resolve_right own)
  · rw [List.map_append]
    exact grown
  · change self.mTab.dhElmCnt + 1 = _
    rw [resides.count, List.length_append]
    rfl
  · intro other member
    by_cases same : other = obj
    · rw [same]
      exact mChain_hold self.mem obj
    · have before : other ∈ objs := by simpa [same] using member
      exact (update_of_ne same _ _).trans (resides.held other before)
  · change _ ∈ update self.mTab.dhBucket index _ index
    rw [update_self]
    exact List.mem_append_right _ (List.mem_singleton.mpr rfl)

theorem Resides.removeObj (resides : self.Resides objs) (member : obj ∈ objs) :
    ∃ next, self.removeObj obj = some next ∧ next.Resides (objs.erase obj) := by
  refine ⟨_, if_pos (resides.held obj member), ?_⟩
  obtain ⟨slot, within, chained⟩ := resides.chained
  have links : (objs.erase obj).map Link.chain = (objs.map Link.chain).erase (.chain obj) :=
    List.map_erase chain_injective objs
  constructor
  · exact resides.positive
  · refine ⟨slot, ?_, ?_⟩
    · intro link left
      rw [links] at left
      exact within link (List.mem_of_mem_erase left)
    · rw [links]
      exact chained.erase _
  · change self.mTab.dhElmCnt - 1 = _
    have some := List.length_pos_of_mem member
    rw [resides.count, List.length_erase_of_mem member]
    omega
  · intro other left
    obtain ⟨differs, inside⟩ := resides.nodup.mem_erase_iff.mp left
    exact (update_of_ne differs _ _).trans (resides.held other inside)

/-- Removing objects leaves the links of the others where they are. -/
theorem removeObjs_others {gone : List Obj} (other : obj ∉ gone) {index : Nat} :
    ∀ {self next : DHashObj}, gone.foldlM removeObj self = some next →
      .chain obj ∈ self.mTab.dhBucket index →
        .chain obj ∈ next.mTab.dhBucket index ∧ next.mTab.dhBkSize = self.mTab.dhBkSize ∧
          next.mem.objKey64 = self.mem.objKey64 ∧ next.mem.objKeystr = self.mem.objKeystr := by
  induction gone with
  | nil =>
      intro self next removed linked
      cases removed
      exact ⟨linked, rfl, rfl, rfl⟩
  | cons old rest ih =>
      intro self next removed linked
      rw [List.foldlM_cons] at removed
      obtain ⟨middle, first, removed⟩ := Option.bind_eq_some_iff.mp removed
      unfold DHashObj.removeObj at first
      by_cases held : self.mem.mChain old
      · rw [if_pos held] at first
        cases first
        have differs : Link.chain obj ≠ .chain old := fun same =>
          other (Link.chain.inj same ▸ List.mem_cons_self)
        have still := ih (fun inside => other (List.mem_cons_of_mem _ inside)) removed
          ((List.mem_erase_of_ne differs).mpr linked)
        exact still
      · rw [if_neg held] at first
        cases first

/-! ## Searches -/

/-- The slot of a link after a rehash. -/
def stringSlot (mem : ObjMem) (size : Nat) : Link → Nat
  | .chain obj => objHashStrfn size (mem.objKeystr obj).bytes
  | _ => 0

/-- A rehash places the links of objects that hold theirs. -/
theorem Resides.rehashes (resides : self.Resides objs) {size : Nat} (positive : 0 < size) :
    ∀ link ∈ self.mTab.links,
      (tableFn self.mem).dhHashFn size link = some (stringSlot self.mem size link) ∧
        stringSlot self.mem size link < size := by
  obtain ⟨slot, within, chained⟩ := resides.chained
  intro link member
  obtain ⟨obj, inside, rfl⟩ := List.mem_map.mp ((chained.mem_flatMap within link).mp member)
  refine ⟨?_, objHashStrfn_lt positive _⟩
  change dhHashKeystr self.mem _ _ = _
  unfold dhHashKeystr
  rw [resides.linked_eq inside]
  rfl

/-- A long walk doubles the table, whose size is an `int`. -/
theorem Resides.dhashGrow_isSome (resides : self.Resides objs) (cnt : Nat) (some : objs ≠ []) :
    (dhashGrow (tableFn self.mem) self.mTab cnt).isSome ↔
      (32 ≤ cnt → 1 + self.mTab.dhBkSize * 2 < 2 ^ 31) := by
  have counted : 0 < self.mTab.dhElmCnt := by
    have length := List.length_pos_iff.mpr some
    rw [resides.count]
    omega
  unfold dhashGrow
  by_cases long : 32 ≤ cnt
  · obtain ⟨slot, within, chained⟩ := resides.chained
    rw [if_pos ⟨long, counted⟩]
    constructor
    · intro grew _
      by_contra wide
      have overflows : dhashRehash (tableFn self.mem)
          { self.mTab with dhMaxChain := max self.mTab.dhMaxChain cnt } = none :=
        dhashRehash_overflow _ (Nat.le_of_not_lt wide)
      rw [overflows] at grew
      cases grew
    · intro room
      rw [dhashRehash_eq (tableFn self.mem)
        { self.mTab with dhMaxChain := max self.mTab.dhMaxChain cnt }
        (stringSlot self.mem (1 + self.mTab.dhBkSize * 2)) resides.positive (room long)
        (chained.nodup_flatMap _) (resides.rehashes (by omega))]
      rfl
  · rw [if_neg fun both => long both.1]
    exact iff_of_true rfl fun grows => (long grows).elim

theorem Resides.grow (resides : self.Resides objs) {cnt : Nat} {grown : Dhash Link}
    (grew : dhashGrow (tableFn self.mem) self.mTab cnt = some grown) :
    Resides ⟨self.mem, grown⟩ objs := by
  have fits : 32 ≤ cnt ∧ 0 < self.mTab.dhElmCnt → 1 + self.mTab.dhBkSize * 2 < 2 ^ 31 := by
    rintro ⟨long, counted⟩
    have some : objs ≠ [] := by
      rintro rfl
      rw [resides.count] at counted
      exact absurd counted (Int.lt_irrefl 0)
    exact (resides.dhashGrow_isSome cnt some).mp (grew ▸ rfl) long
  unfold dhashGrow at grew
  by_cases long : 32 ≤ cnt ∧ 0 < self.mTab.dhElmCnt
  · rw [if_pos long] at grew
    obtain ⟨slot, within, chained⟩ := resides.chained
    have bigger : 0 < 1 + self.mTab.dhBkSize * 2 := Nat.lt_of_lt_of_le Nat.one_pos
      (Nat.le_add_right 1 _)
    rw [dhashRehash_eq (tableFn self.mem)
      { self.mTab with dhMaxChain := max self.mTab.dhMaxChain cnt }
      (stringSlot self.mem (1 + self.mTab.dhBkSize * 2)) resides.positive (fits long)
      (chained.nodup_flatMap _) (resides.rehashes bigger)] at grew
    cases grew
    refine ⟨bigger, ⟨_, ?_, chained.rechain within _⟩, ?_, resides.held⟩
    · intro link member
      obtain ⟨obj, -, rfl⟩ := List.mem_map.mp member
      exact objHashStrfn_lt bigger _
    · have length := chained.length_flatMap within
      rw [List.length_map] at length
      exact congrArg Nat.cast length
  · rw [if_neg long] at grew
    cases grew
    exact ⟨resides.positive, resides.chained, resides.count, resides.held⟩

/-- A search that returns keeps the objects and their keys, and what it finds is one of them. -/
theorem Resides.lookupElm (resides : self.Resides objs) {elm : Link} {hashFn : HashFn Link}
    {hashCmp : CmpFn Link} {index : Nat} (hashed : hashFn self.mTab.dhBkSize elm = some index)
    (inside : index < self.mTab.dhBkSize)
    (compares : ∀ obj ∈ objs, ∃ order, hashCmp (.chain obj) elm = some order)
    {found : Option Obj} (looked : self.lookupElm elm hashFn hashCmp = some (found, next)) :
    next.mem = self.mem ∧ next.Resides objs ∧ ∀ obj, found = some obj → obj ∈ objs := by
  obtain ⟨slot, within, chained⟩ := resides.chained
  have member : ∀ link ∈ self.mTab.dhBucket index, ∃ obj ∈ objs, Link.chain obj = link :=
    fun link linked => List.mem_map.mp ((chained.mem _ _).mp linked).1
  have decides : ∀ link ∈ self.mTab.dhBucket index, ∃ order, hashCmp link elm = some order ∧
      (order = 0 ↔ decide (hashCmp link elm = some 0) = true) := by
    intro link linked
    obtain ⟨obj, inside, rfl⟩ := member link linked
    obtain ⟨order, compared⟩ := compares obj inside
    exact ⟨order, compared, by simp [compared]⟩
  unfold DHashObj.lookupElm at looked
  rw [dhashFindElm_eq (tableFn self.mem) hashed inside decides] at looked
  obtain ⟨⟨link, grown⟩, searched, same⟩ := Option.map_eq_some_iff.mp looked
  obtain ⟨tab, grew, same_⟩ := Option.map_eq_some_iff.mp searched
  cases same
  cases same_
  refine ⟨rfl, resides.grow grew, ?_⟩
  intro obj answered
  obtain ⟨link, first, owner⟩ := Option.bind_eq_some_iff.mp answered
  obtain ⟨other, inside, rfl⟩ := member link (List.mem_of_find?_eq_some first)
  have held := resides.held other inside
  simp only [ObjMem.objCptr, held, if_true, Option.some.injEq] at owner
  exact owner ▸ inside

theorem Resides.lookup64 (resides : self.Resides objs) {cmp64 : Key64 → Key64 → Int}
    {key : Key64} {found : Option Obj} (looked : self.lookup64 cmp64 key = some (found, next)) :
    next.mem = self.mem ∧ next.Resides objs ∧ ∀ obj, found = some obj → obj ∈ objs := by
  refine resides.lookupElm rfl (objHash64_lt resides.positive key) ?_ looked
  intro obj member
  refine ⟨cmp64 (self.mem.objKey64 obj) key, ?_⟩
  unfold dhHashCmpKey64
  rw [resides.linked_eq member]
  rfl

theorem Resides.lookupStr (resides : self.Resides objs) {key : CStr} {found : Option Obj}
    (looked : self.lookupStr key = some (found, next)) :
    next.mem = self.mem ∧ next.Resides objs ∧ ∀ obj, found = some obj → obj ∈ objs := by
  refine resides.lookupElm rfl (objHashStrfn_lt resides.positive key.bytes) ?_ looked
  intro obj member
  refine ⟨strcmp (self.mem.objKeystr obj).bytes key.bytes, ?_⟩
  unfold dhHashCmpKeystr
  rw [resides.linked_eq member]
  rfl

end DHashObj

/-! ## The hash of a cache -/

section Index

open DHashObj

variable {self next : DHashObj} {objs : List Obj} {obj : Obj} {cmp64 : Key64 → Key64 → Int}

/-- `m_chain` of the object is in no container and the table can count one more. -/
def DHashObj.Takes (dh : DHashObj) (obj : Obj) : Prop :=
  dh.mem.mChain obj = false ∧ dh.mTab.dhElmCnt + 1 < 2 ^ 31

/-- The link of the object is in the bucket of its 64-bit key. -/
def DHashObj.Under64 (dh : DHashObj) (obj : Obj) : Prop :=
  .chain obj ∈ dh.mTab.dhBucket (objHash64 dh.mTab.dhBkSize (dh.mem.objKey64 obj))

/-- The link of the object is in the bucket of its string key. -/
def DHashObj.UnderStr (dh : DHashObj) (obj : Obj) : Prop :=
  .chain obj ∈ dh.mTab.dhBucket (objHashStrfn dh.mTab.dhBkSize (dh.mem.objKeystr obj).bytes)

theorem dhHashKey64_hold (mem : ObjMem) (obj : Obj) (size : Nat) :
    dhHashKey64 (hold mem obj) size (.chain obj) = some (objHash64 size (mem.objKey64 obj)) := by
  unfold dhHashKey64
  rw [linked_hold]
  rfl

private theorem dhHashKeystr_hold (mem : ObjMem) (obj : Obj) (size : Nat) :
    dhHashKeystr (hold mem obj) size (.chain obj) =
      some (objHashStrfn size (mem.objKeystr obj).bytes) := by
  unfold dhHashKeystr
  rw [linked_hold]
  rfl

/-- What both insertions are, with the hash function of their key. -/
def DHashObj.insertLink (dh : DHashObj) (obj : Obj) (hashFn : HashFn Link) :
    Option (Nat × DHashObj) :=
  if dh.mem.mChain obj then none
  else (dhashInsertElm dh.mTab (.chain obj) hashFn).map fun result =>
    (result.1, ⟨hold dh.mem obj, result.2⟩)

theorem DHashObj.Resides.insertLink_some (resides : self.Resides objs) {hashFn : HashFn Link}
    {slot : Nat} (hashed : hashFn self.mTab.dhBkSize (.chain obj) = some slot)
    {result : Nat × DHashObj} (inserted : self.insertLink obj hashFn = some result) :
    self.Takes obj ∧ result.2.Resides (objs ++ [obj]) ∧ result.2.mem = hold self.mem obj ∧
      result.2.mTab.dhBkSize = self.mTab.dhBkSize ∧ .chain obj ∈ result.2.mTab.dhBucket slot := by
  unfold DHashObj.insertLink at inserted
  cases free : self.mem.mChain obj with
  | true =>
      rw [free, if_pos rfl] at inserted
      cases inserted
  | false =>
      rw [free, if_neg Bool.false_ne_true] at inserted
      obtain ⟨⟨index, tab⟩, linked, rfl⟩ := Option.map_eq_some_iff.mp inserted
      obtain ⟨placed, -, fits⟩ := dhashInsertElm_some linked
      rw [hashed, Option.some.injEq] at placed
      obtain ⟨still, inside, sized⟩ := resides.insert free linked
      exact ⟨⟨free, fits⟩, still, rfl, sized, placed ▸ inside⟩

theorem DHashObj.Takes.insertLink (takes : self.Takes obj) {hashFn : HashFn Link} {slot : Nat}
    (hashed : hashFn self.mTab.dhBkSize (.chain obj) = some slot)
    (inside : slot < self.mTab.dhBkSize) : ∃ result, self.insertLink obj hashFn = some result := by
  unfold DHashObj.insertLink
  rw [takes.1, if_neg Bool.false_ne_true, dhashInsertElm_eq hashed inside takes.2]
  exact ⟨_, rfl⟩

theorem DHashObj.Resides.insertKey64 (resides : self.Resides objs)
    (inserted : (dhashIndex64 cmp64).insertKey64 self obj = some next) :
    self.Takes obj ∧ next.Resides (objs ++ [obj]) ∧ next.Under64 obj := by
  obtain ⟨result, linked, rfl⟩ := Option.map_eq_some_iff.mp inserted
  obtain ⟨takes, still, mem, sized, placed⟩ :=
    resides.insertLink_some (dhHashKey64_hold self.mem obj _) linked
  refine ⟨takes, still, ?_⟩
  unfold DHashObj.Under64
  rw [mem, sized]
  exact placed

theorem DHashObj.Resides.insertKeystr (resides : self.Resides objs)
    (inserted : (dhashIndex64 cmp64).insertKeystr self obj = some next) :
    self.Takes obj ∧ next.Resides (objs ++ [obj]) ∧ next.UnderStr obj := by
  obtain ⟨result, linked, rfl⟩ := Option.map_eq_some_iff.mp inserted
  obtain ⟨takes, still, mem, sized, placed⟩ :=
    resides.insertLink_some (dhHashKeystr_hold self.mem obj _) linked
  refine ⟨takes, still, ?_⟩
  unfold DHashObj.UnderStr
  rw [mem, sized]
  exact placed

theorem DHashObj.Resides.insertKey64_of_takes (cmp64 : Key64 → Key64 → Int)
    (resides : self.Resides objs) (takes : self.Takes obj) :
    ∃ next, (dhashIndex64 cmp64).insertKey64 self obj = some next := by
  obtain ⟨result, linked⟩ := takes.insertLink (dhHashKey64_hold self.mem obj _)
    (objHash64_lt resides.positive _)
  exact ⟨result.2, Option.map_eq_some_iff.mpr ⟨result, linked, rfl⟩⟩

theorem DHashObj.Resides.insertKeystr_of_takes (cmp64 : Key64 → Key64 → Int)
    (resides : self.Resides objs) (takes : self.Takes obj) :
    ∃ next, (dhashIndex64 cmp64).insertKeystr self obj = some next := by
  obtain ⟨result, linked⟩ := takes.insertLink (dhHashKeystr_hold self.mem obj _)
    (objHashStrfn_lt resides.positive _)
  exact ⟨result.2, Option.map_eq_some_iff.mpr ⟨result, linked, rfl⟩⟩

/-- A search that returns does not change what the table takes. -/
theorem DHashObj.Resides.takes_iff (resides : self.Resides objs) (after : next.Resides objs)
    (mem : next.mem = self.mem) : next.Takes obj ↔ self.Takes obj := by
  unfold DHashObj.Takes
  rw [mem, after.count, resides.count]

theorem dhashIndex64_laws (cmp64 : Key64 → Key64 → Int) :
    (dhashIndex64 cmp64).Laws DHashObj.Resides where
  nodup := DHashObj.Resides.nodup
  perm := fun resides perm => resides.perm perm
  size := DHashObj.Resides.count
  removeObj := DHashObj.Resides.removeObj

theorem dhashIndex64_searches64 (cmp64 : Key64 → Key64 → Int) :
    (dhashIndex64 cmp64).Searches64 DHashObj.Resides where
  keeps := fun resides looked => (resides.lookup64 looked).2
  adds := fun resides missed inserted =>
    ((resides.lookup64 missed).2.1.insertKey64 inserted).2.1

theorem dhashIndex64_searchesStr (cmp64 : Key64 → Key64 → Int) :
    (dhashIndex64 cmp64).SearchesStr DHashObj.Resides where
  keeps := fun resides looked => (resides.lookupStr looked).2
  adds := fun resides missed inserted =>
    ((resides.lookupStr missed).2.1.insertKeystr inserted).2.1

end Index

end Tvntd
