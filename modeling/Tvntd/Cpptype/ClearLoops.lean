import Tvntd.Cpptype.DHashObjFind
import Tvntd.Cpptype.StringKvMap
import Tvntd.Ctype.ShashIter

/-! # Clearing the hash tables

The `clear` methods of `DHashObj`, `SHashObj` and `StringKvMap`: each turn takes
the element at the iterator out of its table, detaches it from its object or
frees its record, and advances. A removal steps the iterator back, but only to
links that are in the table still, so the loop stands at the first element of the
first non-empty bucket whenever it tests for the end.

The body of each loop ends with the last use of the object that it took out. An
object that loses its last reference there is deleted with the links inside it, and
`~OSlink` asserts that its `sl_next` is null. Neither `shash_iter_rm_curr` nor
`OSlink::obj_detach` resets that field, so the link that was taken out reads null only
if it was the last one of its bucket. An `ODlink` that is out of its list is
initialised, so the assertion of `~ODlink` holds.
-/

namespace Tvntd

open LinkedCells Buckets Function

/-! ## Deleted objects -/

/-- The counters of the objects. -/
abbrev Refcnts := Obj → Int

/-- What the destructors do. An object has its own `OSlink`s. A destructor is virtual: `destroyed`
is what else it deletes, and the counters then; `left` is what a freed link reads. -/
structure Destructors (Ref : Type) where
  own : Obj → List Ref
  apart : ∀ first second, ∀ p ∈ own first, p ∈ own second → first = second
  destroyed : Refcnts → Obj → Refcnts × List Obj
  left : SlNext Ref → Ref → Option Ref

namespace Destructors

variable {Ref : Type} (d : Destructors Ref) {refcnt : Refcnts} {next : SlNext Ref}
  {ptr : Option Obj} {ptrs : List (Option Obj)}

/-- `intrusive_ptr_release`: the counters, and the objects that are deleted. -/
def intrusivePtrRelease (refcnt : Refcnts) (obj : Obj) : Refcnts × List Obj :=
  let less := update refcnt obj (refcnt obj - 1)
  if refcnt obj = 1 then ((d.destroyed less obj).1, obj :: (d.destroyed less obj).2) else (less, [])

/-- The end of an `Object::ptr`. -/
def dropped (refcnt : Refcnts) : Option Obj → Refcnts × List Obj
  | none => (refcnt, [])
  | some obj => d.intrusivePtrRelease refcnt obj

/-- The objects that are deleted as these pointers end one after the other. -/
def deleted : Refcnts → List (Option Obj) → List Obj
  | _, [] => []
  | refcnt, ptr :: ptrs =>
      (d.dropped refcnt ptr).2 ++ deleted (d.dropped refcnt ptr).1 ptrs

/-- The counters count: no object is deleted twice, or while one of the pointers is left. -/
structure Counted (refcnt : Refcnts) (ptrs : List (Option Obj)) : Prop where
  once : (d.deleted refcnt ptrs).Nodup
  last : ∀ done rest, ptrs = done ++ rest → ∀ obj ∈ d.deleted refcnt done, some obj ∉ rest

/-- No link in these objects leads on. -/
def Unlinked (next : SlNext Ref) (objs : List Obj) : Prop :=
  ∀ obj ∈ objs, ∀ p ∈ d.own obj, next p = none

/-- The memory without the links in these objects. -/
def freed [DecidableEq Ref] (next : SlNext Ref) (objs : List Obj) : SlNext Ref := fun p =>
  if p ∈ objs.flatMap d.own then d.left next p else next p

/-- The end of an `Object::ptr`, with the assertion of `~OSlink`. -/
def dropPtr [DecidableEq Ref] (refcnt : Refcnts) (next : SlNext Ref) (ptr : Option Obj) :
    Option (Refcnts × SlNext Ref) :=
  let (less, dead) := d.dropped refcnt ptr
  if dead.all fun obj => (d.own obj).all (slinkEmpty next) then some (less, d.freed next dead)
  else none

variable {d}

theorem Counted.tail (counted : d.Counted refcnt (ptr :: ptrs)) :
    d.Counted (d.dropped refcnt ptr).1 ptrs where
  once := (List.nodup_append.mp counted.once).2.1
  last := by
    intro done rest split obj dead
    apply counted.last (ptr :: done) rest (by rw [split, List.cons_append])
    exact List.mem_append_right _ dead

/-- What is deleted with one pointer, no later pointer refers to, and none deletes again. -/
theorem Counted.head (counted : d.Counted refcnt (ptr :: ptrs)) {obj : Obj}
    (dead : obj ∈ (d.dropped refcnt ptr).2) :
    some obj ∉ ptrs ∧ obj ∉ d.deleted (d.dropped refcnt ptr).1 ptrs := by
  constructor
  · exact counted.last [ptr] ptrs rfl obj (List.mem_append_left _ dead)
  · exact fun again => (List.nodup_append.mp counted.once).2.2 obj dead obj again rfl

private theorem unlinked_append {first second : List Obj} :
    d.Unlinked next (first ++ second) ↔ d.Unlinked next first ∧ d.Unlinked next second := by
  simp only [Unlinked, List.mem_append, or_imp, forall_and]

private theorem unlinked_congr {objs : List Obj} {other : SlNext Ref}
    (same : ∀ obj ∈ objs, ∀ p ∈ d.own obj, other p = next p) :
    d.Unlinked other objs ↔ d.Unlinked next objs :=
  forall₂_congr fun obj member => forall₂_congr fun p owned => by rw [same obj member p owned]

variable [DecidableEq Ref]

private theorem freed_of_not {dead : List Obj} {p : Ref} (off : ∀ obj ∈ dead, p ∉ d.own obj) :
    d.freed next dead p = next p :=
  if_neg fun member =>
    let ⟨obj, listed, owned⟩ := List.mem_flatMap.mp member
    off obj listed owned

/-- The links of an object are there while the object is. -/
theorem freed_own {dead : List Obj} {obj : Obj} (alive : obj ∉ dead) {p : Ref}
    (owned : p ∈ d.own obj) : d.freed next dead p = next p := by
  apply freed_of_not
  intro other listed also
  rw [d.apart obj other p owned also] at alive
  exact alive listed

private theorem dropPtr_of_unlinked (empty : d.Unlinked next (d.dropped refcnt ptr).2) :
    d.dropPtr refcnt next ptr =
      some ((d.dropped refcnt ptr).1, d.freed next (d.dropped refcnt ptr).2) :=
  if_pos (List.all_eq_true.mpr fun obj member => List.all_eq_true.mpr fun p owned =>
    Option.isNone_iff_eq_none.mpr (empty obj member p owned))

private theorem dropPtr_of_linked (linked : ¬ d.Unlinked next (d.dropped refcnt ptr).2) :
    d.dropPtr refcnt next ptr = none :=
  if_neg fun tests => linked fun obj member p owned =>
    Option.isNone_iff_eq_none.mp
      (List.all_eq_true.mp (List.all_eq_true.mp tests obj member) p owned)

end Destructors

/-! ## What is taken out -/

/-- Links detached once each from what they referred to; no other link changed. -/
structure Detached {Ref Value : Type*} (links : List Ref) (before after : Ref → Option Value)
    (taken : List (Ref × Value)) : Prop where
  order : taken.map Prod.fst = links
  once : links.Nodup
  referred : ∀ entry ∈ taken, before entry.1 = some entry.2
  reset : ∀ link ∈ links, after link = none
  others : ∀ link, link ∉ links → after link = before link

namespace Detached

variable {Ref Value : Type*} {links : List Ref} {link : Ref} {value : Value}
  {before between after : Ref → Option Value} {taken : List (Ref × Value)}

theorem nil (slots : Ref → Option Value) : Detached [] slots slots [] where
  order := rfl
  once := List.nodup_nil
  referred := fun _ member => absurd member List.not_mem_nil
  reset := fun _ member => absurd member List.not_mem_nil
  others := fun _ _ => rfl

/-- One link, and then others. -/
theorem cons (fresh : link ∉ links) (held : before link = some value)
    (reset : between link = none) (others : ∀ other, other ≠ link → between other = before other)
    (rest : Detached links between after taken) :
    Detached (link :: links) before after ((link, value) :: taken) where
  order := by rw [List.map_cons, rest.order]
  once := List.nodup_cons.mpr ⟨fresh, rest.once⟩
  referred := by
    intro entry member
    rcases List.mem_cons.mp member with rfl | later
    · exact held
    · have listed : entry.1 ∈ links := rest.order ▸ List.mem_map_of_mem later
      rw [← others entry.1 (ne_of_mem_of_not_mem listed fresh)]
      exact rest.referred entry later
  reset := by
    intro other member
    rcases List.mem_cons.mp member with rfl | later
    · rw [rest.others _ fresh, reset]
    · exact rest.reset other later
  others := by
    intro other off
    obtain ⟨differs, absent⟩ := not_or.mp (List.mem_cons.not.mp off)
    rw [rest.others other absent, others other differs]

end Detached

/-! ## Double links -/

namespace DHashObj

/-- The object behind `ol_ptr` of a link. -/
def slot (mem : ObjMem) (link : Link) : Option Obj := objPtr mem (some link)

/-- `ODlink::obj_detach`, with its assertion. The key on the stack of a lookup is never linked. -/
def objDetach (mem : ObjMem) : Link → Option (Obj × ObjMem)
  | .chain obj =>
      if mem.mChain obj then
        some (obj, { mem with mChain := update mem.mChain obj false })
      else none
  | .dlink p =>
      (mem.olPtr p).map fun obj => (obj, { mem with olPtr := update mem.olPtr p none })
  | .seed64 _ => none
  | .seedStr _ => none

variable {Ref : Type} [DecidableEq Ref]

/-- The table, the iterator, the links taken out with their objects, and the counters and single
links of the objects. -/
structure ClearWalk (Ref : Type) where
  self : DHashObj
  iter : DhashIter
  taken : List (Link × Obj)
  refcnt : Refcnts
  next : SlNext Ref

/-- `it == end()`: both pointers of the end are null. -/
def atEnd (iter : DhashIter) : Bool := iter.dhCurr.isNone && iter.dhIter = 0

/-- `DHashObj::clear` -/
def clear (d : Destructors Ref) : Loop (ClearWalk Ref) (DHashObj × List (Link × Obj)) where
  turn walk :=
    if atEnd walk.iter then some (.inr (walk.self, walk.taken))
    else
      (dhashIterRmCurr walk.self.mTab walk.iter).bind fun (cur, mTab, back) =>
        (objDetach walk.self.mem cur).bind fun (obj, mem) =>
          (d.dropPtr walk.refcnt walk.next (some obj)).map fun (refcnt, next) =>
            .inl ⟨⟨mem, mTab⟩, dhashIterNext mTab back, walk.taken ++ [(cur, obj)], refcnt, next⟩

def clearStart (self : DHashObj) (refcnt : Refcnts) (next : SlNext Ref) : ClearWalk Ref :=
  ⟨self, dhashIterInit self.mTab, [], refcnt, next⟩

/-- The pointers in the links of the table, in order. -/
def pointers (dh : DHashObj) : List (Option Obj) := dh.mTab.links.map (slot dh.mem)

/-- The table has buckets, every link is in it once and refers to an object, and the objects are
counted. -/
structure Content (d : Destructors Ref) (refcnt : Refcnts) (dh : DHashObj) : Prop where
  positive : 0 < dh.mTab.dhBkSize
  nodup : dh.mTab.links.Nodup
  refers : ∀ link ∈ dh.mTab.links, (slot dh.mem link).isSome
  counted : d.Counted refcnt dh.pointers

/-- `clear` returns with every bucket empty, having detached every link once. -/
def Clears (self : DHashObj) (d : Destructors Ref) (refcnt : Refcnts) (next : SlNext Ref) : Prop :=
  ∃ after taken, (clear d).Returns (self.clearStart refcnt next) (after, taken) ∧
    (∀ i < self.mTab.dhBkSize, after.mTab.dhBucket i = []) ∧
    Detached self.mTab.links (slot self.mem) (slot after.mem) taken

private theorem objDetach_of_slot {mem : ObjMem} {link : Link} {obj : Obj}
    (held : slot mem link = some obj) : ∃ next, objDetach mem link = some (obj, next) ∧
      slot next link = none ∧ ∀ other, other ≠ link → slot next other = slot mem other := by
  cases link with
  | chain own =>
      cases linked : mem.mChain own with
      | false => simp [slot, objPtr, ObjMem.objCptr, linked] at held
      | true =>
          obtain rfl : own = obj := by simpa [slot, objPtr, ObjMem.objCptr, linked] using held
          refine ⟨_, if_pos linked, by simp [slot, objPtr, ObjMem.objCptr], ?_⟩
          intro other differs
          cases other with
          | chain next =>
              have apart : next ≠ own := fun same => differs (congrArg Link.chain same)
              simp [slot, objPtr, ObjMem.objCptr, update_of_ne apart]
          | _ => rfl
  | dlink p =>
      have here : mem.olPtr p = some obj := by
        cases linked : mem.olPtr p with
        | none => simp [slot, objPtr, ObjMem.objCptr, linked] at held
        | some own => simpa [slot, objPtr, ObjMem.objCptr, linked] using held
      refine ⟨{ mem with olPtr := update mem.olPtr p none }, ?_, ?_, ?_⟩
      · rw [objDetach, here, Option.map_some]
      · simp [slot, objPtr, ObjMem.objCptr]
      · intro other differs
        cases other with
        | dlink q =>
            have apart : q ≠ p := fun same => differs (congrArg Link.dlink same)
            simp [slot, objPtr, ObjMem.objCptr, update_of_ne apart]
        | _ => rfl
  | seed64 key => simp [slot, objPtr, ObjMem.objCptr] at held
  | seedStr key => simp [slot, objPtr, ObjMem.objCptr] at held

/-- An iterator that has ended is the end. -/
theorem atEnd_iff {table : Dhash Link} {iter : DhashIter} (front : table.AtFront iter)
    (ended : iter.dhCurr = none → iter.dhIter = 0) : atEnd iter = true ↔ table.links = [] := by
  rw [← front.links_eq_nil, dhashIterTerm, atEnd, Bool.and_eq_true, decide_eq_true_iff,
    Option.isNone_iff_eq_none]
  exact ⟨fun both => both.1, fun none => ⟨none, ended none⟩⟩

private theorem dhashIterSkip_ended (table : Dhash Link) (left curr : Nat) :
    (dhashIterSkip table left curr).dhCurr = none → (dhashIterSkip table left curr).dhIter = 0 := by
  induction left generalizing curr with
  | zero => exact fun _ => rfl
  | succ left ih =>
      rw [dhashIterSkip]
      split
      · exact ih (curr + 1)
      · exact fun none => absurd none (by simp)

private theorem dhashIterNext_ended (table : Dhash Link) {iter : DhashIter}
    (before : iter.dhCurr = none → iter.dhIter = 0) :
    (dhashIterNext table iter).dhCurr = none → (dhashIterNext table iter).dhIter = 0 := by
  unfold dhashIterNext
  cases at_ : iter.dhCurr with
  | none => simpa only using before
  | some curr =>
      dsimp only
      split
      · exact fun none => absurd none (by simp)
      · exact dhashIterSkip_ended table _ _

theorem dhashIterRmCurr_running {table after : Dhash Link} {iter back : DhashIter} {cur : Link}
    (removed : dhashIterRmCurr table iter = some (cur, after, back)) : back.dhCurr ≠ none := by
  unfold dhashIterRmCurr at removed
  obtain ⟨curr, -, removed⟩ := Option.bind_eq_some_iff.mp removed
  split at removed
  · cases removed
  · obtain ⟨elm, -, same⟩ := Option.map_eq_some_iff.mp removed
    dsimp only at same
    split at same
    · split at same
      · cases same
        exact Option.some_ne_none _
      · cases same
        exact Option.some_ne_none _
    · cases same
      exact Option.some_ne_none _

/-- The loop from the front of a table: it takes the links in order, and returns just if no object
that is deleted has a link that leads on. -/
theorem clear_returns {d : Destructors Ref} {links : List Link} : ∀ (self : DHashObj)
    {iter : DhashIter} (taken : List (Link × Obj)) {refcnt : Refcnts} (next : SlNext Ref),
    self.mTab.links = links → links.Nodup → (∀ link ∈ links, (slot self.mem link).isSome) →
      self.mTab.AtFront iter → (iter.dhCurr = none → iter.dhIter = 0) →
      d.Counted refcnt (links.map (slot self.mem)) →
      (d.Unlinked next (d.deleted refcnt (links.map (slot self.mem))) →
        ∃ after more, (clear d).Returns ⟨self, iter, taken, refcnt, next⟩ (after, taken ++ more) ∧
          after.mTab.links = [] ∧ after.mTab.dhBkSize = self.mTab.dhBkSize ∧
          Detached links (slot self.mem) (slot after.mem) more) ∧
      ∀ result, (clear d).Returns ⟨self, iter, taken, refcnt, next⟩ result →
        d.Unlinked next (d.deleted refcnt (links.map (slot self.mem))) := by
  induction links with
  | nil =>
      intro self iter taken refcnt next links _ _ front ended _
      have done : atEnd iter = true := (atEnd_iff front ended).mpr links
      refine ⟨fun _ => ⟨self, [], Loop.returns_of_done ?_, links, rfl, .nil _⟩, ?_⟩
      · simp [clear, done]
      · exact fun _ _ _ member => absurd member List.not_mem_nil
  | cons link rest ih =>
      intro self iter taken refcnt next links nodup refers front ended counted
      obtain ⟨fresh, distinct⟩ := List.nodup_cons.mp nodup
      have running : atEnd iter = false := by
        rw [Bool.eq_false_iff]
        intro done
        rw [(atEnd_iff front ended).mp done] at links
        exact List.cons_ne_nil link rest links.symm
      obtain ⟨table, back, removed, left, size, further⟩ :=
        front.rmCurr links (links ▸ nodup)
      obtain ⟨obj, held⟩ := Option.isSome_iff_exists.mp (refers link List.mem_cons_self)
      obtain ⟨mem, detached, reset, others⟩ := objDetach_of_slot held
      have same : rest.map (slot mem) = rest.map (slot self.mem) :=
        List.map_congr_left fun other member => others other (ne_of_mem_of_not_mem member fresh)
      have stays : ∀ other ∈ rest, (slot mem other).isSome := by
        intro other member
        rw [others other (ne_of_mem_of_not_mem member fresh)]
        exact refers other (List.mem_cons_of_mem _ member)
      have stops := dhashIterNext_ended table fun none =>
        absurd none (dhashIterRmCurr_running removed)
      rw [List.map_cons, held] at counted ⊢
      have later := ih ⟨mem, table⟩ (taken ++ [(link, obj)])
        (d.freed next (d.dropped refcnt (some obj)).2) left distinct stays further stops
        (same ▸ counted.tail)
      have frame : d.Unlinked (d.freed next (d.dropped refcnt (some obj)).2)
          (d.deleted (d.dropped refcnt (some obj)).1 (rest.map (slot self.mem))) ↔ d.Unlinked next
            (d.deleted (d.dropped refcnt (some obj)).1 (rest.map (slot self.mem))) :=
        Destructors.unlinked_congr fun other member p owned =>
          Destructors.freed_own (fun dead => (counted.head dead).2 member) owned
      simp only [same, frame] at later
      rw [Destructors.deleted, Destructors.unlinked_append]
      by_cases empty : d.Unlinked next (d.dropped refcnt (some obj)).2
      · have turned : (clear d).turn ⟨self, iter, taken, refcnt, next⟩ = some (.inl
            ⟨⟨mem, table⟩, dhashIterNext table back, taken ++ [(link, obj)],
              (d.dropped refcnt (some obj)).1, d.freed next (d.dropped refcnt (some obj)).2⟩) := by
          simp [clear, running, removed, detached, Destructors.dropPtr_of_unlinked empty]
        constructor
        · rintro ⟨-, unlinked⟩
          obtain ⟨after, more, returned, nothing, sized, rested⟩ := later.1 unlinked
          rw [List.append_assoc, List.singleton_append] at returned
          exact ⟨after, _, returned.of_turn turned, nothing, sized.trans size,
            .cons fresh held reset others rested⟩
        · exact fun result returned => ⟨empty, later.2 result (returned.tail turned)⟩
      · constructor
        · exact fun both => absurd both.1 empty
        · intro result returned
          refine absurd returned (Loop.not_returns_of_stuck ?_)
          simp [clear, running, removed, detached, Destructors.dropPtr_of_linked empty]

private theorem Content.clears_iff {d : Destructors Ref} {refcnt : Refcnts} {self : DHashObj}
    (content : self.Content d refcnt) (next : SlNext Ref) :
    self.Clears d refcnt next ↔ d.Unlinked next (d.deleted refcnt self.pointers) := by
  have front := dhashIterInit_atFront self.mTab content.positive
  have ended : (dhashIterInit self.mTab).dhCurr = none → (dhashIterInit self.mTab).dhIter = 0 := by
    unfold dhashIterInit
    dsimp only
    split
    · exact dhashIterNext_ended _ fun none => nomatch none
    · exact fun none => nomatch none
  obtain ⟨returns, only⟩ := clear_returns self [] next rfl content.nodup content.refers
    front ended content.counted
  constructor
  · exact fun ⟨after, taken, returned, _⟩ => only _ returned
  · intro unlinked
    obtain ⟨after, taken, returned, empty, size, detached⟩ := returns unlinked
    refine ⟨after, taken, returned, ?_, detached⟩
    intro i inside
    rw [Dhash.links, List.flatMap_eq_nil_iff] at empty
    exact empty i (List.mem_range.mpr (size ▸ inside))

omit [DecidableEq Ref] in
/-- Every table that the operations lead to can be cleared, if its objects are counted. -/
theorem Holds.content {d : Destructors Ref} {refcnt : Refcnts} {self : DHashObj}
    {all : List Linked} (holds : Holds self all) (counted : d.Counted refcnt self.pointers) :
    self.Content d refcnt where
  positive := holds.positive
  nodup := holds.chained.nodup_flatMap _
  refers := by
    intro link member
    obtain ⟨i, -, here⟩ := List.mem_flatMap.mp member
    obtain ⟨l, listed, rfl⟩ := List.mem_map.mp ((holds.chained.mem i link).mp here).1
    rw [slot, objPtr, Option.bind_some, (holds.refers l listed).objCptr]
    rfl
  counted := counted

end DHashObj

/-! ## Single links -/

variable {Ref Value : Type} [DecidableEq Ref]

/-- What a link stands for: the object that goes when it is taken out, and whether the link is in a
record that is freed then. -/
structure SlinkKind (Value : Type) where
  obj : Value → Option Obj
  record : Bool

def SHashObj.kind : SlinkKind Obj := ⟨some, false⟩

def StringKvMap.kind : SlinkKind StringKv :=
  ⟨fun kv => if kv.sObj = nullptr then none else some kv.sObj, true⟩

/-- The memory, the iterator, what each link or record holds, what was taken out, and the counters
of the objects. -/
structure SlinkClearWalk (Ref Value : Type) where
  next : SlNext Ref
  iter : ShashIter Ref
  slots : Ref → Option Value
  taken : List (Ref × Value)
  refcnt : Refcnts

/-- `it == end()`: both pointers of the end are null. -/
def shashAtEnd (iter : ShashIter Ref) : Bool := iter.shCurr.isNone && iter.shIter.slCurr.isNone

/-- The memory after `free` of a record. -/
def SlinkKind.free (kind : SlinkKind Value) (d : Destructors Ref) (next : SlNext Ref) (link : Ref) :
    SlNext Ref := if kind.record then update next link (d.left next link) else next

/-- The loop of both singly linked tables. `iter_takeout` resets the slot of the link it removed,
which must not be empty, and the object goes at the end of the body. -/
def slinkClear (table : ShashTable Ref) (kind : SlinkKind Value) (d : Destructors Ref) :
    Loop (SlinkClearWalk Ref Value)
      (SlNext Ref × (Ref → Option Value) × List (Ref × Value)) where
  turn walk :=
    if shashAtEnd walk.iter then some (.inr (walk.next, walk.slots, walk.taken))
    else
      (shashIterRmCurr walk.next table walk.iter).bind fun (cur, next, back) =>
        match cur with
        | none => some (.inl { walk with next := next, iter := shashIterNext next table back })
        | some link =>
            (walk.slots link).bind fun value =>
              (d.dropPtr walk.refcnt (kind.free d next link) (kind.obj value)).map
                fun (refcnt, next) =>
                  .inl ⟨next, shashIterNext next table back,
                    update walk.slots link none, walk.taken ++ [(link, value)], refcnt⟩

def slinkClearStart (next : SlNext Ref) (table : ShashTable Ref) (slots : Ref → Option Value)
    (refcnt : Refcnts) : SlinkClearWalk Ref Value :=
  ⟨next, shashIterInit next table, slots, [], refcnt⟩

/-- `SHashObj::clear`: `OSlink::obj_detach` resets `ol_ptr`, and nothing else. -/
def SHashObj.clear (table : ShashTable Ref) (d : Destructors Ref) :
    Loop (SlinkClearWalk Ref Obj) (SlNext Ref × (Ref → Option Obj) × List (Ref × Obj)) :=
  slinkClear table SHashObj.kind d

/-- `StringKvMap::clear`: the record is freed, after its object and its value are read. -/
def StringKvMap.clear (table : ShashTable Ref) (d : Destructors Ref) :
    Loop (SlinkClearWalk Ref StringKv)
      (SlNext Ref × (Ref → Option StringKv) × List (Ref × StringKv)) :=
  slinkClear table StringKvMap.kind d

/-- The pointers to objects that a clear loop ends, in order. -/
def SlinkKind.pointers (kind : SlinkKind Value) (entries : List (Ref × Value)) :
    List (Option Obj) := entries.map fun entry => kind.obj entry.2

/-- The buckets hold the links of these entries, the objects are counted, and a link in an object
is no bucket, and in the table only as a link to that object. -/
structure SlinkContent (kind : SlinkKind Value) (d : Destructors Ref) (refcnt : Refcnts)
    (next : SlNext Ref) (table : ShashTable Ref) (slots : Ref → Option Value)
    (lists : Nat → List Ref) (entries : List (Ref × Value)) : Prop where
  holds : ShashHolds next table lists
  order : elements table.shBkSize lists = entries.map Prod.fst
  refers : ∀ entry ∈ entries, slots entry.1 = some entry.2
  counted : d.Counted refcnt (kind.pointers entries)
  apart : ∀ obj, ∀ p ∈ d.own obj, ∀ i < table.shBkSize, p ≠ table.shBucket i
  inside : ∀ obj, ∀ entry ∈ entries, entry.1 ∈ d.own obj →
    kind.record = false ∧ kind.obj entry.2 = some obj

/-- A clear loop returns with every bucket empty, having emptied the slot of every link once. -/
def SlinkClears (loop : Loop (SlinkClearWalk Ref Value)
      (SlNext Ref × (Ref → Option Value) × List (Ref × Value)))
    (next : SlNext Ref) (table : ShashTable Ref) (slots : Ref → Option Value) (refcnt : Refcnts)
    (lists : Nat → List Ref) : Prop :=
  ∃ after cleared taken,
    loop.Returns (slinkClearStart next table slots refcnt) (after, cleared, taken) ∧
      (∀ i < table.shBkSize, slinkEmpty after (table.shBucket i) = true) ∧
      Detached (elements table.shBkSize lists) slots cleared taken

variable {next : SlNext Ref} {table : ShashTable Ref} {lists : Nat → List Ref}
  {iter : ShashIter Ref} {slots : Ref → Option Value} {kind : SlinkKind Value}
  {d : Destructors Ref} {refcnt : Refcnts} {entries : List (Ref × Value)}

omit [DecidableEq Ref] in
theorem shashIterSkip_ended (next : SlNext Ref) (table : ShashTable Ref) (position : SlinkIter Ref)
    (left curr : Nat) : (shashIterSkip next table position left curr).shCurr = none →
      (shashIterSkip next table position left curr).shIter.slCurr = none := by
  induction left generalizing curr with
  | zero => exact fun _ => rfl
  | succ left ih =>
      rw [shashIterSkip]
      split
      · exact ih (curr + 1)
      · exact fun none => absurd none (by simp)

omit [DecidableEq Ref] in
private theorem shashIterNext_ended (next : SlNext Ref) (table : ShashTable Ref) (curr : Nat)
    (position : SlinkIter Ref) :
    (shashIterNext next table ⟨some curr, position⟩).shCurr = none →
      (shashIterNext next table ⟨some curr, position⟩).shIter.slCurr = none := by
  unfold shashIterNext
  dsimp only
  split
  · exact shashIterSkip_ended next table _ _ _
  · exact fun none => nomatch none

omit [DecidableEq Ref] in
private theorem shashIterInit_ended (next : SlNext Ref) (table : ShashTable Ref) :
    (shashIterInit next table).shCurr = none →
      (shashIterInit next table).shIter.slCurr = none := by
  unfold shashIterInit
  dsimp only
  split
  · exact shashIterNext_ended next table 0 _
  · exact fun none => nomatch none

omit [DecidableEq Ref] in
/-- Ready for a bucket behind empty ones is ready for the first bucket. -/
theorem ShashReady.zero {k : Nat} (ready : ShashReady table lists k iter)
    (empty : ∀ i < k, lists i = []) : ShashReady table lists 0 iter := by
  induction k with
  | zero => exact ready
  | succ k ih =>
      apply ih ((shashReady_succ_iff (empty k (Nat.lt_succ_self k))).mp ready)
      exact fun i before => empty i (Nat.lt_succ_of_lt before)

omit [DecidableEq Ref] in
/-- The first bucket that is not empty gives up its first element. -/
theorem elements_update_tail {size k : Nat} {link : Ref} {rest : List Ref} (inside : k < size)
    (before : ∀ i < k, lists i = []) (here : lists k = link :: rest) :
    elements size lists = link :: elements size (update lists k rest) := by
  induction size with
  | zero => exact absurd inside (Nat.not_lt_zero k)
  | succ size ih =>
      rw [elements_succ, elements_succ]
      by_cases last : k = size
      · subst last
        have none : elements k lists = [] :=
          List.flatMap_eq_nil_iff.mpr fun i member => before i (List.mem_range.mp member)
        have still : elements k (update lists k rest) = elements k lists :=
          elements_congr fun i earlier => update_of_ne (Nat.ne_of_lt earlier) _ _
        rw [still, none, here, update_self, List.nil_append, List.nil_append]
      · rw [ih (by omega), update_of_ne (Ne.symm last), List.cons_append]

/-- The first link is out, and the iterator is at the first one of those left, whatever is written
to other cells before it advances. -/
theorem shashIterRmCurr_first (holds : ShashHolds next table lists)
    (ready : ShashReady table lists 0 iter) {link : Ref} {links : List Ref}
    (all : elements table.shBkSize lists = link :: links) :
    shashAtEnd iter = false ∧ ∃ unlinked back rest,
      shashIterRmCurr next table iter = some (some link, unlinked, back) ∧
      elements table.shBkSize rest = links ∧
      (∀ p, (∀ i < table.shBkSize, p ≠ table.shBucket i) → unlinked p = next p) ∧
      ∀ after : SlNext Ref,
        (∀ i < table.shBkSize, ∀ p ∈ table.shBucket i :: rest i, after p = unlinked p) →
        ShashHolds after table rest ∧ ShashReady table rest 0 (shashIterNext after table back) ∧
        ((shashIterNext after table back).shCurr = none →
          (shashIterNext after table back).shIter.slCurr = none) := by
  obtain ⟨k, standing⟩ : ∃ k, iter.shCurr = some k := by
    cases at_ : iter.shCurr with
    | some k => exact ⟨k, rfl⟩
    | none =>
        have empty := ready.ready
        rw [at_] at empty
        have none : elements table.shBkSize lists = [] := List.flatMap_eq_nil_iff.mpr
          fun i member => empty i (Nat.zero_le i) (List.mem_range.mp member)
        rw [none] at all
        cases all
  have place := ready.position k standing
  obtain ⟨⟨-, inside⟩, before, linked⟩ := standing ▸ ready.ready
  replace before : ∀ i < k, lists i = [] := fun i earlier => before i (Nat.zero_le i) earlier
  obtain ⟨first, rest, here⟩ := List.exists_cons_of_ne_nil linked
  have split := elements_update_tail inside before here
  rw [all] at split
  obtain ⟨rfl, same⟩ := List.cons.inj split
  have chain := holds.chain k inside
  rw [here] at chain
  have front : table.shBucket k :: lists k = [] ++ table.shBucket k :: link :: rest := by
    rw [here, List.nil_append]
  let unlinked := update next (table.shBucket k) (next link)
  have removed : ShashHolds unlinked table (update lists k rest) :=
    holds.unlink inside front rest rfl
  have current : iter.shIter = ⟨some (table.shBucket k), some link⟩ := by
    rw [place, here]
    rfl
  have follows : next (table.shBucket k) = some link := ChainOf.head_eq chain
  refine ⟨by simp [shashAtEnd, standing], unlinked,
    shashIterBack unlinked table (some k) (table.shBucket k), update lists k rest,
    by simp [shashIterRmCurr, current, follows, standing, unlinked], same.symm,
    fun p off => update_of_ne (off k inside) _ _, ?_⟩
  intro after agrees
  have stays := removed.of_agrees agrees
  have back : shashIterBack unlinked table (some k) (table.shBucket k) =
      shashIterBack after table (some k) (table.shBucket k) := by
    have earlier : k - 1 < table.shBkSize := by omega
    unfold shashIterBack slinkEmpty slinkIterInit
    dsimp only
    rw [Option.bind_some, Option.bind_some, agrees k inside _ List.mem_cons_self,
      agrees (k - 1) earlier _ List.mem_cons_self]
  rw [back]
  refine ⟨stays, ?_, ?_⟩
  · have empty : ∀ i < k, update lists k rest i = [] := by
      intro i earlier
      rw [update_of_ne (Nat.ne_of_lt earlier)]
      exact before i earlier
    have own : update lists k rest k = rest := update_self ..
    cases rest with
    | nil =>
        refine (shashIterBack_ready stays inside own).zero ?_
        intro i earlier
        rcases Nat.lt_succ_iff_lt_or_eq.mp earlier with sooner | rfl
        · exact empty i sooner
        · exact own
    | cons second others =>
        have full : after (table.shBucket k) = some second := by
          have chain := stays.chain k inside
          rw [own] at chain
          exact ChainOf.head_eq chain
        have stands : shashIterNext after table
            (shashIterBack after table (some k) (table.shBucket k)) =
              ⟨some k, ⟨some (table.shBucket k), some second⟩⟩ := by
          simp [shashIterBack, shashIterNext, slinkIterNext, slinkIterTerm, full]
        rw [stands]
        refine ⟨⟨⟨Nat.zero_le k, inside⟩, fun i _ earlier => empty i earlier, ?_⟩, ?_⟩
        · rw [own]
          exact List.cons_ne_nil second others
        · intro j same
          cases same
          rw [own]
          rfl
  · have runs : ∃ bucket position,
        shashIterBack after table (some k) (table.shBucket k) = ⟨some bucket, position⟩ := by
      unfold shashIterBack
      dsimp only
      split
      · split <;> exact ⟨_, _, rfl⟩
      · exact ⟨_, _, rfl⟩
    obtain ⟨bucket, position, stands⟩ := runs
    rw [stands]
    exact shashIterNext_ended after table bucket position

/-- What is freed with the first link is no bucket, no link that is left in the table, and in no
object that is deleted later. -/
theorem SlinkContent.free_eq {link : Ref} {value : Value}
    (content : SlinkContent kind d refcnt next table slots lists ((link, value) :: entries))
    (unlinked : SlNext Ref) {p : Ref}
    (stays : (∃ i < table.shBkSize, p = table.shBucket i) ∨ p ∈ entries.map Prod.fst ∨
      ∃ obj ∈ d.deleted (d.dropped refcnt (kind.obj value)).1 (kind.pointers entries),
        p ∈ d.own obj) :
    d.freed (kind.free d unlinked link) (d.dropped refcnt (kind.obj value)).2 p = unlinked p := by
  have nodup := content.holds.nodup
  rw [content.order, List.map_cons, List.nodup_cons] at nodup
  have record : kind.free d unlinked link p = unlinked p := by
    unfold SlinkKind.free
    split
    · rename_i frees
      apply update_of_ne
      rintro rfl
      rcases stays with ⟨i, inside, bucket⟩ | listed | ⟨obj, -, owned⟩
      · have member : p ∈ elements table.shBkSize lists := by
          rw [content.order]
          exact List.mem_cons_self
        exact content.holds.off_buckets member i inside bucket
      · exact nodup.1 listed
      · have kept := (content.inside obj _ List.mem_cons_self owned).1
        rw [frees] at kept
        cases kept
    · rfl
  rw [← record]
  rcases stays with ⟨i, inside, bucket⟩ | listed | ⟨obj, later, owned⟩
  · exact Destructors.freed_of_not fun obj _ owned => content.apart obj p owned i inside bucket
  · apply Destructors.freed_of_not
    intro obj dead owned
    obtain ⟨entry, member, rfl⟩ := List.mem_map.mp listed
    apply (content.counted.head dead).1
    rw [← (content.inside obj entry (List.mem_cons_of_mem _ member) owned).2]
    exact List.mem_map_of_mem member
  · exact Destructors.freed_own (fun dead => (content.counted.head dead).2 later) owned

/-- The loop from the front of a table: it takes the links in order, and returns just if no object
that is deleted has a link that leads on. -/
theorem slinkClear_returns : ∀ {entries : List (Ref × Value)} {next : SlNext Ref}
    {iter : ShashIter Ref} {slots : Ref → Option Value} {lists : Nat → List Ref}
    {refcnt : Refcnts} (taken : List (Ref × Value)),
    SlinkContent kind d refcnt next table slots lists entries → ShashReady table lists 0 iter →
      (iter.shCurr = none → iter.shIter.slCurr = none) →
      (d.Unlinked next (d.deleted refcnt (kind.pointers entries)) → ∃ after cleared more,
        (slinkClear table kind d).Returns ⟨next, iter, slots, taken, refcnt⟩
          (after, cleared, taken ++ more) ∧
        (∀ i < table.shBkSize, slinkEmpty after (table.shBucket i) = true) ∧
        Detached (entries.map Prod.fst) slots cleared more) ∧
      ∀ result, (slinkClear table kind d).Returns ⟨next, iter, slots, taken, refcnt⟩ result →
        d.Unlinked next (d.deleted refcnt (kind.pointers entries)) := by
  intro entries
  induction entries with
  | nil =>
      intro next iter slots lists refcnt taken content ready ended
      have empty : ∀ i < table.shBkSize, lists i = [] := fun i inside =>
        List.flatMap_eq_nil_iff.mp content.order i (List.mem_range.mpr inside)
      have stopped : iter.shCurr = none := by
        cases at_ : iter.shCurr with
        | none => rfl
        | some k =>
            obtain ⟨⟨-, inside⟩, -, linked⟩ := at_ ▸ ready.ready
            exact absurd (empty k inside) linked
      refine ⟨fun _ => ⟨next, slots, [], Loop.returns_of_done ?_, ?_, .nil _⟩, ?_⟩
      · simp [slinkClear, shashAtEnd, stopped, ended stopped]
      · intro i inside
        rw [content.holds.empty_iff inside, empty i inside]
        rfl
      · exact fun _ _ _ member => absurd member List.not_mem_nil
  | cons entry entries ih =>
      obtain ⟨link, value⟩ := entry
      intro next iter slots lists refcnt taken content ready _
      have nodup := content.holds.nodup
      rw [content.order, List.map_cons, List.nodup_cons] at nodup
      have fresh : link ∉ entries.map Prod.fst := nodup.1
      have held : slots link = some value := content.refers _ List.mem_cons_self
      obtain ⟨running, unlinked, back, rest, removing, same, off, further⟩ :=
        shashIterRmCurr_first content.holds ready content.order
      have owned : ∀ obj, ∀ p ∈ d.own obj, unlinked p = next p :=
        fun obj p own => off p (content.apart obj p own)
      have others : ∀ other, other ≠ link →
          update slots link none other = slots other :=
        fun other differs => update_of_ne differs _ _
      obtain ⟨stays, ready, ended⟩ := further
        (d.freed (kind.free d unlinked link) (d.dropped refcnt (kind.obj value)).2) (by
          intro i inside p member
          apply content.free_eq
          rcases List.mem_cons.mp member with rfl | member
          · exact Or.inl ⟨i, inside, rfl⟩
          · refine Or.inr (Or.inl ?_)
            rw [← same]
            exact mem_elements.mpr ⟨i, inside, member⟩)
      have left : SlinkContent kind d (d.dropped refcnt (kind.obj value)).1
          (d.freed (kind.free d unlinked link) (d.dropped refcnt (kind.obj value)).2) table
          (update slots link none) rest entries := by
        refine ⟨stays, same, ?_, content.counted.tail, content.apart, ?_⟩
        · intro entry member
          rw [others _ (ne_of_mem_of_not_mem (List.mem_map_of_mem member) fresh)]
          exact content.refers entry (List.mem_cons_of_mem _ member)
        · exact fun obj entry member => content.inside obj entry (List.mem_cons_of_mem _ member)
      have later := ih (taken ++ [(link, value)]) left ready ended
      rw [Destructors.unlinked_congr fun obj member p own =>
        (content.free_eq unlinked (Or.inr (Or.inr ⟨obj, member, own⟩))).trans
          (owned obj p own)] at later
      have tests : d.Unlinked (kind.free d unlinked link) (d.dropped refcnt (kind.obj value)).2 ↔
          d.Unlinked next (d.dropped refcnt (kind.obj value)).2 := by
        apply Destructors.unlinked_congr
        intro obj _ p own
        rw [← owned obj p own, SlinkKind.free]
        split
        · rename_i frees
          apply update_of_ne
          rintro rfl
          have kept := (content.inside obj _ List.mem_cons_self own).1
          rw [frees] at kept
          cases kept
        · rfl
      rw [SlinkKind.pointers, List.map_cons, Destructors.deleted, Destructors.unlinked_append,
        ← SlinkKind.pointers]
      by_cases empty : d.Unlinked next (d.dropped refcnt (kind.obj value)).2
      · have turned : (slinkClear table kind d).turn ⟨next, iter, slots, taken, refcnt⟩ =
            some (.inl
              ⟨d.freed (kind.free d unlinked link) (d.dropped refcnt (kind.obj value)).2,
                shashIterNext (d.freed (kind.free d unlinked link)
                  (d.dropped refcnt (kind.obj value)).2) table back,
                update slots link none, taken ++ [(link, value)],
                (d.dropped refcnt (kind.obj value)).1⟩) := by
          simp only [slinkClear, running, removing, held, Option.bind_some, Bool.false_eq_true,
            if_false, Destructors.dropPtr_of_unlinked (tests.mpr empty), Option.map_some]
        constructor
        · rintro ⟨-, good⟩
          obtain ⟨last, cleared, more, returned, emptied, detached⟩ := later.1 good
          rw [List.append_assoc, List.singleton_append] at returned
          exact ⟨last, cleared, _, returned.of_turn turned, emptied,
            .cons fresh held (update_self ..) others detached⟩
        · exact fun result returned => ⟨empty, later.2 result (returned.tail turned)⟩
      · constructor
        · exact fun both => absurd both.1 empty
        · intro result returned
          refine absurd returned (Loop.not_returns_of_stuck ?_)
          simp only [slinkClear, running, removing, held, Option.bind_some, Bool.false_eq_true,
            if_false, Destructors.dropPtr_of_linked (mt tests.mp empty), Option.map_none]

private theorem SlinkContent.clears_iff
    (content : SlinkContent kind d refcnt next table slots lists entries) :
    SlinkClears (slinkClear table kind d) next table slots refcnt lists ↔
      d.Unlinked next (d.deleted refcnt (kind.pointers entries)) := by
  obtain ⟨returns, only⟩ := slinkClear_returns [] content
    (shashIterInit_ready content.holds) (shashIterInit_ended next table)
  constructor
  · exact fun ⟨after, cleared, taken, returned, _⟩ => only _ returned
  · intro unlinked
    obtain ⟨after, cleared, taken, returned, empty, detached⟩ := returns unlinked
    exact ⟨after, cleared, taken, returned, empty, content.order ▸ detached⟩

/-! ## The three methods -/

/-- The three methods return, with every bucket empty and every object or record taken out once. -/
def ClearsAll (d : Destructors Ref) (refcnt : Refcnts) (next : SlNext Ref) (dh : DHashObj)
    (table : ShashTable Ref) (slots : Ref → Option Obj) (lists : Nat → List Ref)
    (kvTable : ShashTable Ref) (records : Ref → Option StringKv) (kvLists : Nat → List Ref) :
    Prop :=
  dh.Clears d refcnt next ∧
    SlinkClears (SHashObj.clear table d) next table slots refcnt lists ∧
    SlinkClears (StringKvMap.clear kvTable d) next kvTable records refcnt kvLists

/-- **Clearing.** For every content, the three loops return with every bucket empty and every object
or record taken out once just if each object that is deleted, as it loses its last reference, has no
link that leads on; whatever comes to stand in the memory that is freed. -/
theorem clear_empties_iff {dh : DHashObj} (content : dh.Content d refcnt)
    {slots : Ref → Option Obj} {entries : List (Ref × Obj)}
    (objects : SlinkContent SHashObj.kind d refcnt next table slots lists entries)
    {records : Ref → Option StringKv} {kvTable : ShashTable Ref} {kvLists : Nat → List Ref}
    {kvEntries : List (Ref × StringKv)}
    (kvs : SlinkContent StringKvMap.kind d refcnt next kvTable records kvLists kvEntries) :
    ClearsAll d refcnt next dh table slots lists kvTable records kvLists ↔
      d.Unlinked next (d.deleted refcnt dh.pointers) ∧
      d.Unlinked next (d.deleted refcnt (SHashObj.kind.pointers entries)) ∧
      d.Unlinked next (d.deleted refcnt (StringKvMap.kind.pointers kvEntries)) :=
  and_congr (content.clears_iff next) (and_congr objects.clears_iff kvs.clears_iff)

/-- Ten objects with one link each. -/
private def tenObjects : Destructors Nat where
  own obj := if obj < 10 then [obj + 10] else []
  apart := by grind
  destroyed refcnt _ := (refcnt, [])
  left _ link := some link

/-- The objects 1 and 2 behind the bucket 0, and two records behind the bucket 20. -/
private def twoChains : SlNext Nat := fun link =>
  if link = 0 then some 11 else if link = 11 then some 12
  else if link = 20 then some 21 else if link = 21 then some 22 else none

/-- How often the object 1 is referred to; each other one is once. -/
private def firstCount (count : Int) : Refcnts := fun obj => if obj = 1 then count else 1

private theorem counted_two {first second : Option Obj} {refcnt : Refcnts}
    (once : (tenObjects.deleted refcnt [first, second]).Nodup)
    (last : ∀ obj ∈ tenObjects.deleted refcnt [first], some obj ≠ second) :
    tenObjects.Counted refcnt [first, second] where
  once := once
  last := by
    intro done rest split obj dead
    match done, split with
    | [], _ => exact absurd dead List.not_mem_nil
    | [_], split =>
        cases split
        exact fun member => last obj dead (List.mem_singleton.mp member)
    | [_, _], split =>
        cases split
        exact List.not_mem_nil
    | _ :: _ :: _ :: _, split => cases split

private theorem twoChains_holds {head first second : Nat}
    (chain : ChainOf twoChains head [head, first, second]) :
    ShashHolds twoChains ⟨fun _ => head, 1, 2⟩ fun _ => [first, second] where
  positive := Nat.one_pos
  chain := fun _ _ => chain
  apart := by
    intro i one j two differ
    change i < 1 at one
    change j < 1 at two
    omega

private def twoObjects : Nat → Option Obj := fun link =>
  if link = 11 then some 1 else if link = 12 then some 2 else none

private def twoRecords : Nat → Option StringKv := fun link =>
  if link = 21 then some ⟨.caller 0, 7, nullptr⟩ else some ⟨.caller 1, nullptr, 5⟩

private def twoChained : DHashObj :=
  ⟨⟨fun _ => 0, fun _ => ⟨[], CStr.ended_nil⟩, fun _ => true, fun _ => none⟩,
    ⟨fun _ => [.chain 3, .chain 4], 1, 2, 0⟩⟩

private theorem mem_own {obj p : Nat} : p ∈ tenObjects.own obj ↔ obj < 10 ∧ p = obj + 10 := by
  simp only [tenObjects]
  split <;> simp [*]

private theorem twoObjects_content {count : Int} (held : count = 1 ∨ count = 2) :
    SlinkContent SHashObj.kind tenObjects (firstCount count) twoChains ⟨fun _ => 0, 1, 2⟩ twoObjects
      (fun _ => [11, 12]) [(11, 1), (12, 2)] where
  holds := twoChains_holds (by decide)
  order := by decide
  refers := by decide
  counted := by rcases held with rfl | rfl <;> exact counted_two (by decide) (by decide)
  apart := by
    intro obj p owned i inside
    exact (mem_own.mp owned).2 ▸ Nat.succ_ne_zero (obj + 9)
  inside := by
    intro obj entry member owned
    obtain ⟨-, place⟩ := mem_own.mp owned
    rcases List.mem_pair.mp member with rfl | rfl
    · exact ⟨rfl, congrArg some (Nat.add_right_cancel (m := 10) place)⟩
    · exact ⟨rfl, congrArg some (Nat.add_right_cancel (m := 10) place)⟩

private theorem twoRecords_content :
    SlinkContent StringKvMap.kind tenObjects (firstCount 2) twoChains ⟨fun _ => 20, 1, 2⟩
      twoRecords (fun _ => [21, 22])
      [(21, ⟨.caller 0, 7, nullptr⟩), (22, ⟨.caller 1, nullptr, 5⟩)] where
  holds := twoChains_holds (by decide)
  order := by decide
  refers := by simp [twoRecords]
  counted := counted_two (by decide) (by decide)
  apart := by
    intro obj p owned i inside
    have small := mem_own.mp owned
    exact Nat.ne_of_lt (show p < 20 by omega)
  inside := by
    intro obj entry member owned
    obtain ⟨small, place⟩ := mem_own.mp owned
    rcases List.mem_pair.mp member with rfl | rfl
    · exact absurd place (by dsimp only; omega)
    · exact absurd place (by dsimp only; omega)

private theorem twoChained_content : twoChained.Content tenObjects (firstCount 2) :=
  ⟨by decide, by decide, by decide, counted_two (by decide) (by decide)⟩

/-- With another reference to the object that is not the last one of its bucket, all is cleared. -/
theorem clear_empties_iff_held :
    ClearsAll tenObjects (firstCount 2) twoChains twoChained ⟨fun _ => 0, 1, 2⟩ twoObjects
        (fun _ => [11, 12]) ⟨fun _ => 20, 1, 2⟩ twoRecords (fun _ => [21, 22]) := by
  refine (clear_empties_iff twoChained_content (twoObjects_content (Or.inr rfl))
    twoRecords_content).mpr ⟨?_, ?_, ?_⟩
  all_goals
    unfold Destructors.Unlinked
    decide

/-- Without one, the first turn deletes the object, and `~OSlink` finds the link to the second. -/
theorem exists_not_slinkClears :
    ∃ (d : Destructors Nat) (refcnt : Refcnts) (next : SlNext Nat) (table : ShashTable Nat)
      (slots : Nat → Option Obj) (lists : Nat → List Nat) (entries : List (Nat × Obj)),
      SlinkContent SHashObj.kind d refcnt next table slots lists entries ∧
      ¬ SlinkClears (SHashObj.clear table d) next table slots refcnt lists := by
  refine ⟨_, _, _, _, _, _, _, twoObjects_content (Or.inl rfl), ?_⟩
  intro clears
  have unlinked := (twoObjects_content (Or.inl rfl)).clears_iff.mp clears
  exact absurd (unlinked 1 (by decide) 11 (by decide)) (by decide)

end Tvntd
