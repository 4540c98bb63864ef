import Tvntd.Lib.Machine
import Tvntd.Ctype.DhashRehash
import Tvntd.Cpptype.DHashObj

/-! # Finding the objects of a `DHashObj`

`Linked` records which insertion placed a link, and with it the slot the link
belongs to. While every link sits in its slot (`DHashObj.Holds`) the matching
lookup finds an object with the key. Insertions, removals and short probes keep
that. A long probe rehashes every link by the string hash of its object, which
keeps it only where that hash agrees with the one the link was placed by
(`DHashObj.RehashKeeps`).
-/

namespace Tvntd

open Chaining Function

/-- The insertion that placed a link. -/
inductive Linked where
  | key64 (obj : Obj)
  | keystr (obj : Obj)
  | chain (obj : Obj) (p : Nat)
  deriving DecidableEq

namespace Linked

def obj : Linked → Obj
  | key64 obj | keystr obj | chain obj _ => obj

def link : Linked → Link
  | key64 obj | keystr obj => .chain obj
  | chain _ p => .dlink p

/-- The bucket of the hash function that placed the link. -/
def slot (mem : ObjMem) (size : Nat) : Linked → Nat
  | key64 obj | chain obj _ => objHash64 size (mem.objKey64 obj)
  | keystr obj => objHashStrfn size (mem.objKeystr obj).bytes

/-- The link refers to the object it was linked for. -/
def Refers (mem : ObjMem) : Linked → Prop
  | key64 obj | keystr obj => mem.mChain obj = true
  | chain obj p => mem.olPtr p = some obj

theorem Refers.objCptr {mem : ObjMem} {l : Linked} (refers : l.Refers mem) :
    mem.objCptr l.link = some (.obj l.obj) := by
  cases l with
  | key64 obj => exact if_pos refers
  | keystr obj => exact if_pos refers
  | chain obj p => exact congrArg (Option.map Owner.obj) refers

private theorem slot_lt (mem : ObjMem) {size : Nat} (positive : 0 < size) (l : Linked) :
    l.slot mem size < size := by
  cases l with
  | key64 obj => exact objHash64_lt positive _
  | keystr obj => exact objHashStrfn_lt positive _
  | chain obj p => exact objHash64_lt positive _

private theorem slot_congr {mem other : ObjMem} (keys : other.objKey64 = mem.objKey64)
    (names : other.objKeystr = mem.objKeystr) (size : Nat) (l : Linked) :
    l.slot other size = l.slot mem size := by
  cases l with
  | key64 obj => rw [slot, slot, keys]
  | keystr obj => rw [slot, slot, names]
  | chain obj p => rw [slot, slot, keys]

/-- The slot of an address: that of the insertion that linked it. -/
def slotOf (mem : ObjMem) (size : Nat) (all : List Linked) (elm : Link) : Nat :=
  ((all.find? fun l => l.link = elm).map (slot mem size)).getD 0

theorem slotOf_link (mem : ObjMem) (size : Nat) {all : List Linked}
    (nodup : (all.map link).Nodup) {l : Linked} (member : l ∈ all) :
    slotOf mem size all l.link = l.slot mem size := by
  have some : (all.find? fun k => k.link = l.link).isSome := by
    rw [List.find?_isSome]
    exact ⟨l, member, decide_eq_true rfl⟩
  obtain ⟨k, found⟩ := Option.isSome_iff_exists.mp some
  have matched : decide (k.link = l.link) = true :=
    List.find?_some (p := fun k : Linked => decide (k.link = l.link)) found
  have same : k.link = l.link := of_decide_eq_true matched
  have only : k = l := List.inj_on_of_nodup_map nodup (List.mem_of_find?_eq_some found) member same
  rw [slotOf, found, only]
  rfl

end Linked

namespace DHashObj

/-- Every link is in its slot, once, refers to its object, and is counted. -/
structure Holds (dh : DHashObj) (all : List Linked) : Prop where
  positive : 0 < dh.mTab.dhBkSize
  chained : Chained dh.mTab.dhBucket (Linked.slotOf dh.mem dh.mTab.dhBkSize all)
    (all.map Linked.link)
  count : dh.mTab.dhElmCnt = all.length
  refers : ∀ l ∈ all, l.Refers dh.mem

/-- `m_chain` of every linked object refers to its object. -/
def Anchored (mem : ObjMem) (all : List Linked) : Prop := ∀ l ∈ all, mem.mChain l.obj = true

/-- In the next bucket array the string hash of every linked object is the slot of its link,
and the size of that array is an `int`. -/
def RehashKeeps (self : DHashObj) (all : List Linked) : Prop :=
  self.mTab.dhBkSize < 2 ^ 30 ∧ ∀ l ∈ all,
    objHashStrfn (1 + self.mTab.dhBkSize * 2) (self.mem.objKeystr l.obj).bytes =
      l.slot self.mem (1 + self.mTab.dhBkSize * 2)

variable {self : DHashObj} {all : List Linked}

theorem holds_init (mem : ObjMem) {size : Nat} (positive : 0 < size) :
    Holds ⟨mem, dhashInit size⟩ [] where
  positive := positive
  chained := chained_empty _
  count := rfl
  refers := by simp

theorem Holds.linked_eq (holds : Holds self all) (anchored : Anchored self.mem all) {l : Linked}
    (member : l ∈ all) : self.mem.linked l.link = some (.obj l.obj) := by
  have held : self.mem.chained (.obj l.obj) = true := anchored l member
  unfold ObjMem.linked
  rw [(holds.refers l member).objCptr, Option.bind_some, if_pos held]

/-- The slots do not change with the pointers of the objects. -/
theorem Holds.chained_of_keys (holds : Holds self all) {mem : ObjMem} {others : List Linked}
    (keys : mem.objKey64 = self.mem.objKey64) (names : mem.objKeystr = self.mem.objKeystr)
    (within : ∀ l ∈ all, l ∈ others) (nodup : (others.map Linked.link).Nodup) :
    Chained self.mTab.dhBucket (Linked.slotOf mem self.mTab.dhBkSize others)
      (all.map Linked.link) := by
  apply holds.chained.congr
  intro elm member
  obtain ⟨l, inside, rfl⟩ := List.mem_map.mp member
  rw [Linked.slotOf_link mem _ nodup (within l inside),
    Linked.slotOf_link self.mem _ holds.chained.nodup_all inside,
    Linked.slot_congr keys names]

/-! ## Insertions and removals -/

theorem Holds.insert (holds : Holds self all) (mem : ObjMem) (l : Linked) {hashFn : HashFn Link}
    (keys : mem.objKey64 = self.mem.objKey64) (names : mem.objKeystr = self.mem.objKeystr)
    (refers : ∀ k ∈ all ++ [l], k.Refers mem)
    (fresh : l.link ∉ all.map Linked.link)
    (hashed : hashFn self.mTab.dhBkSize l.link = some (l.slot mem self.mTab.dhBkSize))
    (fits : self.mTab.dhElmCnt + 1 < 2 ^ 31) :
    ∃ index tab, dhashInsertElm self.mTab l.link hashFn = some (index, tab) ∧
      Holds ⟨mem, tab⟩ (all ++ [l]) := by
  have nodup : ((all ++ [l]).map Linked.link).Nodup := by
    rw [List.map_append]
    refine List.nodup_append.mpr ⟨holds.chained.nodup_all, List.nodup_singleton _, ?_⟩
    intro first inside second last
    rw [List.map_singleton, List.mem_singleton] at last
    subst last
    exact fun same => fresh (same ▸ inside)
  have chained := holds.chained_of_keys keys names
    (fun k member => List.mem_append_left [l] member) nodup
  have own : Linked.slotOf mem self.mTab.dhBkSize (all ++ [l]) l.link =
      l.slot mem self.mTab.dhBkSize :=
    Linked.slotOf_link mem _ nodup (List.mem_append_right all (List.mem_singleton.mpr rfl))
  have grown := chained.append fresh
  rw [own] at grown
  refine ⟨_, _, dhashInsertElm_eq hashed (l.slot_lt mem holds.positive) fits, ?_⟩
  constructor
  · exact holds.positive
  · rw [List.map_append]
    exact grown
  · change self.mTab.dhElmCnt + 1 = _
    rw [holds.count, List.length_append]
    rfl
  · exact refers

theorem map_link_erase {l : Linked} (nodup : (all.map Linked.link).Nodup) (member : l ∈ all) :
    (all.erase l).map Linked.link = (all.map Linked.link).erase l.link := by
  rw [nodup.erase_eq_filter, (List.Nodup.of_map _ nodup).erase_eq_filter, List.filter_map]
  congr 1
  apply List.filter_congr
  intro k inside
  have only := List.inj_on_of_nodup_map nodup inside member
  by_cases same : k = l
  · simp [same]
  · have differs : k.link ≠ l.link := fun equal => same (only equal)
    rw [bne_iff_ne.mpr same, Function.comp_apply, bne_iff_ne.mpr differs]

theorem Holds.takeout (holds : Holds self all) (mem : ObjMem) {l : Linked} (member : l ∈ all)
    (keys : mem.objKey64 = self.mem.objKey64) (names : mem.objKeystr = self.mem.objKeystr)
    (refers : ∀ k ∈ all.erase l, k.Refers mem) :
    Holds ⟨mem, dhashTakeoutElm self.mTab l.link⟩ (all.erase l) := by
  have nodup := holds.chained.nodup_all
  have links := map_link_erase nodup member
  have left : ((all.erase l).map Linked.link).Nodup := by
    rw [links]
    exact nodup.erase _
  have chained := holds.chained.erase l.link
  rw [← links] at chained
  constructor
  · exact holds.positive
  · apply chained.congr
    intro elm inside
    obtain ⟨k, kept, rfl⟩ := List.mem_map.mp inside
    change Linked.slotOf mem self.mTab.dhBkSize _ _ = _
    rw [Linked.slotOf_link mem _ left kept,
      Linked.slotOf_link self.mem _ nodup (List.mem_of_mem_erase kept),
      Linked.slot_congr keys names]
  · change self.mTab.dhElmCnt - 1 = _
    have some := List.length_pos_of_mem member
    rw [holds.count, List.length_erase_of_mem member]
    omega
  · exact refers

private theorem Holds.mChain_of_mem (holds : Holds self all) {obj : Obj}
    (member : Link.chain obj ∈ all.map Linked.link) : self.mem.mChain obj = true := by
  obtain ⟨l, inside, same⟩ := List.mem_map.mp member
  have refers := holds.refers l inside
  cases l with
  | key64 other => exact Link.chain.inj same ▸ refers
  | keystr other => exact Link.chain.inj same ▸ refers
  | chain other p => cases same

private theorem Holds.olPtr_of_mem (holds : Holds self all) {p : Nat}
    (member : Link.dlink p ∈ all.map Linked.link) : self.mem.olPtr p ≠ none := by
  obtain ⟨l, inside, same⟩ := List.mem_map.mp member
  have refers := holds.refers l inside
  cases l with
  | key64 other => cases same
  | keystr other => cases same
  | chain other q =>
      rw [← Link.dlink.inj same, show self.mem.olPtr q = some other from refers]
      exact Option.some_ne_none _

theorem mChain_hold (mem : ObjMem) (obj : Obj) : (hold mem obj).mChain obj = true :=
  update_self _ _ _

/-- Holding one more `m_chain` keeps what the links refer to. -/
theorem refers_hold {mem : ObjMem} {l : Linked} (refers : l.Refers mem) (obj : Obj) :
    l.Refers (hold mem obj) := by
  have keeps : ∀ other, mem.mChain other = true → (hold mem obj).mChain other = true := by
    intro other held
    by_cases same : other = obj
    · rw [same]
      exact mChain_hold mem obj
    · exact (update_of_ne same _ _).trans held
  cases l with
  | key64 other => exact keeps other refers
  | keystr other => exact keeps other refers
  | chain other p => exact refers

theorem linked_hold (mem : ObjMem) (obj : Obj) :
    (hold mem obj).linked (.chain obj) = some (.obj obj) := by
  have held := mChain_hold mem obj
  simp [ObjMem.linked, ObjMem.objCptr, ObjMem.chained, held]

private theorem Holds.refers_append (holds : Holds self all) (obj : Obj) (l : Linked)
    (own : l.Refers (hold self.mem obj)) : ∀ k ∈ all ++ [l], k.Refers (hold self.mem obj) := by
  intro k member
  rcases List.mem_append.mp member with inside | last
  · exact refers_hold (holds.refers k inside) obj
  · exact List.mem_singleton.mp last ▸ own

private theorem Holds.not_mem_of_free (holds : Holds self all) {obj : Obj}
    (free : self.mem.mChain obj = false) : Link.chain obj ∉ all.map Linked.link := by
  intro member
  rw [holds.mChain_of_mem member] at free
  cases free

theorem Holds.insertKey64 (holds : Holds self all) {obj : Obj} (free : self.mem.mChain obj = false)
    (fits : self.mTab.dhElmCnt + 1 < 2 ^ 31) :
    ∃ index next, self.insertKey64 obj = some (index, next) ∧ next.mem = hold self.mem obj ∧
      Holds next (all ++ [.key64 obj]) := by
  have hashed : dhHashKey64 (hold self.mem obj) self.mTab.dhBkSize (.chain obj) =
      some ((Linked.key64 obj).slot (hold self.mem obj) self.mTab.dhBkSize) := by
    unfold dhHashKey64
    rw [linked_hold]
    rfl
  obtain ⟨index, tab, inserted, still⟩ := holds.insert (hold self.mem obj) (.key64 obj) rfl rfl
    (holds.refers_append obj (.key64 obj) (mChain_hold self.mem obj))
      (holds.not_mem_of_free free) hashed fits
  refine ⟨index, ⟨hold self.mem obj, tab⟩, ?_, rfl, still⟩
  change dhashInsertElm self.mTab (.chain obj) _ = _ at inserted
  unfold DHashObj.insertKey64
  rw [free]
  simp only [Bool.false_eq_true, if_false, inserted, Option.map_some]

theorem Holds.insertKeystr (holds : Holds self all) {obj : Obj}
    (free : self.mem.mChain obj = false) (fits : self.mTab.dhElmCnt + 1 < 2 ^ 31) :
    ∃ index next, self.insertKeystr obj = some (index, next) ∧ next.mem = hold self.mem obj ∧
      Holds next (all ++ [.keystr obj]) := by
  have hashed : dhHashKeystr (hold self.mem obj) self.mTab.dhBkSize (.chain obj) =
      some ((Linked.keystr obj).slot (hold self.mem obj) self.mTab.dhBkSize) := by
    unfold dhHashKeystr
    rw [linked_hold]
    rfl
  obtain ⟨index, tab, inserted, still⟩ := holds.insert (hold self.mem obj) (.keystr obj) rfl rfl
    (holds.refers_append obj (.keystr obj) (mChain_hold self.mem obj))
      (holds.not_mem_of_free free) hashed fits
  refine ⟨index, ⟨hold self.mem obj, tab⟩, ?_, rfl, still⟩
  change dhashInsertElm self.mTab (.chain obj) _ = _ at inserted
  unfold DHashObj.insertKeystr dhashInsert tableFn
  rw [free]
  simp only [Bool.false_eq_true, if_false, inserted, Option.map_some]

/-- `p->ol_ptr = obj` -/
def refer (mem : ObjMem) (p : Nat) (obj : Option Obj) : ObjMem :=
  { mem with olPtr := update mem.olPtr p obj }

theorem Holds.insertChain (holds : Holds self all) {obj : Obj} {p : Nat}
    (free : self.mem.olPtr p = none) (anchored : self.mem.mChain obj = true)
    (fits : self.mTab.dhElmCnt + 1 < 2 ^ 31) :
    ∃ index next, self.insertChain obj p = some (index, next) ∧
      next.mem = refer self.mem p (some obj) ∧ Holds next (all ++ [.chain obj p]) := by
  have own : (refer self.mem p (some obj)).olPtr p = some obj := update_self _ _ _
  have fresh : Link.dlink p ∉ all.map Linked.link := fun member => holds.olPtr_of_mem member free
  have refers : ∀ k ∈ all ++ [.chain obj p], k.Refers (refer self.mem p (some obj)) := by
    intro k member
    rcases List.mem_append.mp member with inside | last
    · have before := holds.refers k inside
      cases k with
      | key64 other => exact before
      | keystr other => exact before
      | chain other q =>
          have differs : q ≠ p := by
            rintro rfl
            exact fresh (List.mem_map_of_mem inside)
          exact (update_of_ne differs _ _).trans before
    · exact List.mem_singleton.mp last ▸ own
  have hashed : dhHashChain (refer self.mem p (some obj)) self.mTab.dhBkSize (.dlink p) =
      some ((Linked.chain obj p).slot (refer self.mem p (some obj)) self.mTab.dhBkSize) := by
    unfold dhHashChain ObjMem.objCptr
    simp only [own, Option.map_some, Option.bind_some]
    exact if_pos anchored
  obtain ⟨index, tab, inserted, still⟩ := holds.insert (refer self.mem p (some obj))
    (.chain obj p) rfl rfl refers fresh hashed fits
  refine ⟨index, ⟨refer self.mem p (some obj), tab⟩, ?_, rfl, still⟩
  change dhashInsertElm self.mTab (.dlink p) _ = _ at inserted
  unfold refer at inserted
  unfold DHashObj.insertChain
  rw [if_pos free]
  simp only [inserted, Option.map_some]
  rfl

/-- `m_chain.ol_ptr = NULL` -/
def release (mem : ObjMem) (obj : Obj) : ObjMem :=
  { mem with mChain := update mem.mChain obj false }

theorem Holds.removeObj (holds : Holds self all) {l : Linked} {obj : Obj} (member : l ∈ all)
    (own : l.link = .chain obj) :
    ∃ next, self.removeObj obj = some next ∧ next.mem = release self.mem obj ∧
      Holds next (all.erase l) := by
  have held : self.mem.mChain obj = true :=
    holds.mChain_of_mem (List.mem_map.mpr ⟨l, member, own⟩)
  have refers : ∀ k ∈ all.erase l, k.Refers (release self.mem obj) := by
    intro k kept
    have nodup := (List.Nodup.of_map _ holds.chained.nodup_all).mem_erase_iff.mp kept
    have before := holds.refers k nodup.2
    have other : ∀ o, k.link = .chain o → o ≠ obj := by
      intro o at_ same
      have equal : k.link = l.link := by rw [at_, own, same]
      exact nodup.1 (List.inj_on_of_nodup_map holds.chained.nodup_all nodup.2 member equal)
    cases k with
    | key64 o => exact (update_of_ne (other o rfl) _ _).trans before
    | keystr o => exact (update_of_ne (other o rfl) _ _).trans before
    | chain o p => exact before
  have still := holds.takeout (release self.mem obj) member rfl rfl refers
  rw [own] at still
  exact ⟨_, if_pos held, rfl, still⟩

theorem Holds.removeChain (holds : Holds self all) {obj : Obj} {p : Nat}
    (member : Linked.chain obj p ∈ all) :
    ∃ next, self.removeChain obj p = some next ∧ next.mem = refer self.mem p none ∧
      Holds next (all.erase (.chain obj p)) := by
  have refers : ∀ k ∈ all.erase (.chain obj p), k.Refers (refer self.mem p none) := by
    intro k kept
    have nodup := (List.Nodup.of_map _ holds.chained.nodup_all).mem_erase_iff.mp kept
    have before := holds.refers k nodup.2
    cases k with
    | key64 o => exact before
    | keystr o => exact before
    | chain o q =>
        have differs : q ≠ p := by
          rintro rfl
          exact nodup.1 (List.inj_on_of_nodup_map holds.chained.nodup_all nodup.2 member rfl)
        exact (update_of_ne differs _ _).trans before
  have still := holds.takeout (refer self.mem p none) member rfl rfl refers
  exact ⟨_, if_pos (holds.refers _ member), rfl, still⟩

/-! ## Lookups -/

private theorem Holds.slotOf_lt (holds : Holds self all) :
    ∀ elm ∈ all.map Linked.link,
      Linked.slotOf self.mem self.mTab.dhBkSize all elm < self.mTab.dhBkSize := by
  intro elm member
  obtain ⟨l, inside, rfl⟩ := List.mem_map.mp member
  rw [Linked.slotOf_link self.mem _ holds.chained.nodup_all inside]
  exact l.slot_lt self.mem holds.positive

/-- A rehash by the string hash puts every link in its own slot again. -/
theorem Holds.grow (holds : Holds self all) (anchored : Anchored self.mem all) (cnt : Nat)
    (keeps : 32 ≤ cnt → RehashKeeps self all) :
    ∃ grown, dhashGrow (tableFn self.mem) self.mTab cnt = some grown ∧
      Holds ⟨self.mem, grown⟩ all := by
  unfold dhashGrow
  by_cases long : 32 ≤ cnt ∧ 0 < self.mTab.dhElmCnt
  · obtain ⟨room, agrees⟩ := keeps long.1
    have nodup := holds.chained.nodup_all
    have bigger : 0 < 1 + self.mTab.dhBkSize * 2 := Nat.lt_of_lt_of_le Nat.one_pos
      (Nat.le_add_right 1 _)
    have hashes : ∀ elm ∈ self.mTab.links,
        (tableFn self.mem).dhHashFn (1 + self.mTab.dhBkSize * 2) elm =
          some (Linked.slotOf self.mem (1 + self.mTab.dhBkSize * 2) all elm) ∧
        Linked.slotOf self.mem (1 + self.mTab.dhBkSize * 2) all elm <
          1 + self.mTab.dhBkSize * 2 := by
      intro elm member
      have inside := (holds.chained.mem_flatMap holds.slotOf_lt elm).mp member
      obtain ⟨l, linked, rfl⟩ := List.mem_map.mp inside
      rw [Linked.slotOf_link self.mem _ nodup linked]
      refine ⟨?_, l.slot_lt self.mem bigger⟩
      change dhHashKeystr self.mem _ _ = _
      unfold dhHashKeystr
      rw [holds.linked_eq anchored linked, ← agrees l linked]
      rfl
    have rehashed := dhashRehash_eq (tableFn self.mem)
      { self.mTab with dhMaxChain := max self.mTab.dhMaxChain cnt }
      (Linked.slotOf self.mem (1 + self.mTab.dhBkSize * 2) all) holds.positive
      (by change 1 + self.mTab.dhBkSize * 2 < 2 ^ 31; omega)
      (holds.chained.nodup_flatMap _) hashes
    refine ⟨_, by rw [if_pos long]; exact rehashed, ?_⟩
    constructor
    · exact bigger
    · exact holds.chained.rechain holds.slotOf_lt _
    · have length := holds.chained.length_flatMap holds.slotOf_lt
      rw [List.length_map] at length
      exact congrArg Nat.cast length
    · exact holds.refers
  · exact ⟨_, if_neg long, holds.positive, holds.chained, holds.count, holds.refers⟩

/-- A lookup whose comparison tells the wanted links apart returns the object of a wanted link,
and it returns one if a wanted link belongs to the probed bucket. -/
theorem Holds.lookupElm (holds : Holds self all) (anchored : Anchored self.mem all) {elm : Link}
    {hashFn : HashFn Link} {hashCmp : CmpFn Link} {index : Nat} {wanted : Linked → Prop}
    {same : Link → Bool} (wants : ∀ l ∈ all, same l.link = true ↔ wanted l)
    (hashed : hashFn self.mTab.dhBkSize elm = some index) (inside : index < self.mTab.dhBkSize)
    (compares : ∀ l ∈ all, ∃ order, hashCmp l.link elm = some order ∧
      (order = 0 ↔ same l.link = true))
    (keeps : LongWalk same (self.mTab.dhBucket index) → RehashKeeps self all) :
    ∃ answer next, self.lookupElm elm hashFn hashCmp = some (answer, next) ∧
      next.mem = self.mem ∧ Holds next all ∧
      (∀ obj, answer = some obj → ∃ l ∈ all, wanted l ∧ l.obj = obj) ∧
      (∀ l ∈ all, wanted l → l.slot self.mem self.mTab.dhBkSize = index → answer.isSome) := by
  have member : ∀ link, link ∈ self.mTab.dhBucket index → ∃ l ∈ all, l.link = link := by
    intro link found
    exact List.mem_map.mp ((holds.chained.mem _ _).mp found).1
  have scanned : ∀ link ∈ self.mTab.dhBucket index,
      ∃ order, hashCmp link elm = some order ∧ (order = 0 ↔ same link = true) := by
    intro link found
    obtain ⟨l, linked, rfl⟩ := member link found
    exact compares l linked
  obtain ⟨grown, grew, still⟩ := holds.grow anchored
    (probeVisits same (self.mTab.dhBucket index)) fun long => keeps ((longWalk_iff _ _).mpr long)
  refine ⟨objPtr self.mem ((self.mTab.dhBucket index).find? same), ⟨self.mem, grown⟩, ?_, rfl,
    still, ?_, ?_⟩
  · unfold DHashObj.lookupElm
    rw [dhashFindElm_eq (tableFn self.mem) hashed inside scanned, grew]
    rfl
  · intro obj answered
    obtain ⟨link, found, owner⟩ := Option.bind_eq_some_iff.mp answered
    obtain ⟨l, linked, rfl⟩ := member link (List.mem_of_find?_eq_some found)
    rw [(holds.refers l linked).objCptr, Option.some.injEq] at owner
    exact ⟨l, linked, (wants l linked).mp (List.find?_some found), owner⟩
  · intro l linked want placed
    have here : l.link ∈ self.mTab.dhBucket index := by
      rw [holds.chained.mem]
      refine ⟨List.mem_map_of_mem linked, ?_⟩
      rw [Linked.slotOf_link self.mem _ holds.chained.nodup_all linked, placed]
    have some : ((self.mTab.dhBucket index).find? same).isSome := by
      rw [List.find?_isSome]
      exact ⟨l.link, here, (wants l linked).mpr want⟩
    obtain ⟨link, found⟩ := Option.isSome_iff_exists.mp some
    obtain ⟨k, other, rfl⟩ := member link (List.mem_of_find?_eq_some found)
    rw [found, objPtr, Option.bind_some, (holds.refers k other).objCptr]
    rfl

/-- The object of a link has this 64-bit key. -/
def keyed (mem : ObjMem) (key : Key64) (link : Link) : Bool :=
  (mem.objCptr link).any fun obj => mem.key64 obj = key

/-- The object of a link has this string key. -/
def named (mem : ObjMem) (key : CStr) (link : Link) : Bool :=
  (mem.objCptr link).any fun obj => mem.keystr obj = key

theorem Holds.keyed_iff (holds : Holds self all) (key : Key64) {l : Linked} (member : l ∈ all) :
    keyed self.mem key l.link = true ↔ self.mem.objKey64 l.obj = key := by
  unfold keyed
  rw [(holds.refers l member).objCptr]
  exact decide_eq_true_iff

theorem Holds.named_iff (holds : Holds self all) (key : CStr) {l : Linked} (member : l ∈ all) :
    named self.mem key l.link = true ↔ self.mem.objKeystr l.obj = key := by
  unfold named
  rw [(holds.refers l member).objCptr]
  exact decide_eq_true_iff

section Exact

variable {cmp64 : Key64 → Key64 → Int} (exactly : ∀ own key, cmp64 own key = 0 ↔ own = key)

theorem Holds.lookup64 (holds : Holds self all) (anchored : Anchored self.mem all) (key : Key64)
    (tells : ∀ l ∈ all, cmp64 (self.mem.objKey64 l.obj) key = 0 ↔ self.mem.objKey64 l.obj = key)
    (keeps : LongWalk (keyed self.mem key)
      (self.mTab.dhBucket (objHash64 self.mTab.dhBkSize key)) → RehashKeeps self all) :
    ∃ answer next, self.lookup64 cmp64 key = some (answer, next) ∧ next.mem = self.mem ∧
      Holds next all ∧
      (∀ obj, answer = some obj → ∃ l ∈ all, self.mem.objKey64 l.obj = key ∧ l.obj = obj) ∧
      (∀ l ∈ all, self.mem.objKey64 l.obj = key →
        l.slot self.mem self.mTab.dhBkSize = objHash64 self.mTab.dhBkSize key →
          answer.isSome) := by
  refine holds.lookupElm anchored (fun l member => holds.keyed_iff key member) rfl
    (objHash64_lt holds.positive key) ?_ keeps
  intro l member
  refine ⟨cmp64 (self.mem.objKey64 l.obj) key, ?_, ?_⟩
  · unfold dhHashCmpKey64
    rw [holds.linked_eq anchored member]
    rfl
  · rw [tells l member, holds.keyed_iff key member]

include exactly in
theorem Holds.lookupChain (holds : Holds self all) (anchored : Anchored self.mem all) {p : Nat}
    {obj : Obj} (refers : self.mem.olPtr p = some obj) (held : self.mem.mChain obj = true)
    (keeps : LongWalk (keyed self.mem (self.mem.objKey64 obj))
      (self.mTab.dhBucket (objHash64 self.mTab.dhBkSize (self.mem.objKey64 obj))) →
        RehashKeeps self all) :
    ∃ answer next, self.lookupChain cmp64 p = some (answer, next) ∧ next.mem = self.mem ∧
      Holds next all ∧
      (∀ other, answer = some other →
        ∃ l ∈ all, self.mem.objKey64 l.obj = self.mem.objKey64 obj ∧ l.obj = other) ∧
      (∀ l ∈ all, self.mem.objKey64 l.obj = self.mem.objKey64 obj →
        l.slot self.mem self.mTab.dhBkSize =
          objHash64 self.mTab.dhBkSize (self.mem.objKey64 obj) → answer.isSome) := by
  have probe : self.mem.objCptr (.dlink p) = some (.obj obj) := congrArg (Option.map _) refers
  refine holds.lookupElm anchored (fun l member => holds.keyed_iff _ member) ?_
    (objHash64_lt holds.positive _) ?_ keeps
  · unfold dhHashChain
    rw [probe]
    exact if_pos held
  · intro l member
    refine ⟨cmp64 (self.mem.objKey64 l.obj) (self.mem.objKey64 obj), ?_, ?_⟩
    · unfold dhHashCmpChain
      rw [holds.linked_eq anchored member, probe]
      rfl
    · rw [exactly, holds.keyed_iff _ member]

end Exact

theorem Holds.lookupStr (holds : Holds self all) (anchored : Anchored self.mem all) (key : CStr)
    (keeps : LongWalk (named self.mem key)
      (self.mTab.dhBucket (objHashStrfn self.mTab.dhBkSize key.bytes)) → RehashKeeps self all) :
    ∃ answer next, self.lookupStr key = some (answer, next) ∧ next.mem = self.mem ∧
      Holds next all ∧
      (∀ obj, answer = some obj → ∃ l ∈ all, self.mem.objKeystr l.obj = key ∧ l.obj = obj) ∧
      (∀ l ∈ all, self.mem.objKeystr l.obj = key →
        l.slot self.mem self.mTab.dhBkSize = objHashStrfn self.mTab.dhBkSize key.bytes →
          answer.isSome) := by
  refine holds.lookupElm anchored (fun l member => holds.named_iff key member) rfl
    (objHashStrfn_lt holds.positive key.bytes) ?_ keeps
  intro l member
  refine ⟨strcmp (self.mem.objKeystr l.obj).bytes key.bytes, ?_, ?_⟩
  · unfold dhHashCmpKeystr
    rw [holds.linked_eq anchored member]
    rfl
  · rw [strcmp_eq_zero_iff, holds.named_iff key member]

end DHashObj

end Tvntd
