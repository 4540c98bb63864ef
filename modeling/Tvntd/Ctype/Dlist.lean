import Tvntd.Lib.Compare
import Tvntd.Lib.Loop
import Tvntd.Lib.TwoWay

/-! # Circular lists

The model of `include/ctype/dlist.h` and `common/ctype/dlist.c` over the links in
memory. A list head is a link too, so the links of a list are its head and its
elements, and the head of a list without elements leads to itself.

`none` in place of a result is a pointer that is followed and was never set.
-/

namespace Tvntd

open TwoWay Function

variable {ρ : Type*}

/-- `dl_next` and `dl_prev` of every link. -/
abbrev Dlinks (ρ : Type*) := Links ρ

namespace Dlinks

variable [DecidableEq ρ]

/-- `dlist_init` -/
def dlistInit (mem : Dlinks ρ) (dlist : ρ) : Dlinks ρ :=
  (mem.setPrev dlist (some dlist)).setNext dlist (some dlist)

/-- `dlist_empty` -/
def dlistEmpty (mem : Dlinks ρ) (dlist : ρ) : Bool :=
  mem.next dlist = some dlist && mem.prev dlist = some dlist

/-- `dlist_add_front` -/
def dlistAddFront (mem : Dlinks ρ) (dlist elm : ρ) : Option (Dlinks ρ) := do
  let mem := mem.setNext elm (mem.next dlist)
  let mem := mem.setPrev elm (some dlist)
  let first ← mem.next dlist
  let mem := mem.setPrev first (some elm)
  return mem.setNext dlist (some elm)

/-- `dlist_add_back` -/
def dlistAddBack (mem : Dlinks ρ) (dlist elm : ρ) : Option (Dlinks ρ) := do
  let last ← mem.prev dlist
  dlistAddFront mem last elm

/-- `dlist_rm` -/
def dlistRm (mem : Dlinks ρ) (elm : ρ) : Option (Dlinks ρ) := do
  let before ← mem.prev elm
  let mem := mem.setNext before (mem.next elm)
  let behind ← mem.next elm
  return mem.setPrev behind (mem.prev elm)

/-- `dlist_merge` -/
def dlistMerge (mem : Dlinks ρ) (root list : ρ) : Option (Dlinks ρ) :=
  if dlistEmpty mem list then some mem
  else do
    let rootLast ← mem.prev root
    let mem := mem.setNext rootLast (mem.next list)
    let first ← mem.next list
    let mem := mem.setPrev first (mem.prev root)
    let last ← mem.prev list
    let mem := mem.setNext last (some root)
    let mem := mem.setPrev root (mem.prev list)
    return dlistInit mem list

/-- `dlist_merge_front` -/
def dlistMergeFront (mem : Dlinks ρ) (root list : ρ) : Option (Dlinks ρ) :=
  if dlistEmpty mem list then some mem
  else do
    let rootFirst ← mem.next root
    let mem := mem.setPrev rootFirst (mem.prev list)
    let last ← mem.prev list
    let mem := mem.setNext last (mem.next root)
    let mem := mem.setNext root (mem.next list)
    let first ← mem.next list
    let mem := mem.setPrev first (some root)
    return dlistInit mem list

/-- `dlist_split` -/
def dlistSplit (mem : Dlinks ρ) (hdr ptr res : ρ) : Option (Dlinks ρ) :=
  if dlistEmpty mem ptr then some mem
  else if hdr ≠ ptr then do
    let mem := mem.setNext res (some ptr)
    let mem := mem.setPrev res (mem.prev hdr)
    let mem := mem.setPrev hdr (mem.prev ptr)
    let before ← mem.prev hdr
    let mem := mem.setNext before (some hdr)
    let mem := mem.setPrev ptr (some res)
    let last ← mem.prev res
    return mem.setNext last (some res)
  else dlistMerge mem hdr res

/-- `dlist_add_sorted`. The state of the loop is its iterator, and `none` at the entry of the
function. A comparison has no result where it follows a null pointer. -/
def dlistAddSorted (mem : Dlinks ρ) (list elm : ρ) (cmp : ρ → ρ → Option Int) :
    Loop (Option ρ) (Dlinks ρ) where
  turn
    | none =>
        if dlistEmpty mem list then (dlistAddFront mem list elm).map Sum.inr
        else
          (mem.prev list).bind fun last =>
            (cmp last elm).bind fun order =>
              if 0 ≤ order then (mem.next list).map fun first => .inl (some first)
              else (dlistAddBack mem list elm).map Sum.inr
    | some cur =>
        if cur = list then some (.inr mem)
        else
          (cmp elm cur).bind fun order =>
            if order ≤ 0 then (dlistAddBack mem cur elm).map Sum.inr
            else (mem.next cur).map fun behind => .inl (some behind)

/-! ## Stores as joins -/

variable {mem : Dlinks ρ} {head list root elm hdr ptr res : ρ} {elems front back others : List ρ}

theorem dlistInit_eq (mem : Dlinks ρ) (dlist : ρ) : dlistInit mem dlist = mem.join dlist dlist :=
  rfl

theorem dlistAddFront_eq {first : ρ} (linked : mem.next list = some first) (other : elm ≠ first) :
    dlistAddFront mem list elm = some ((mem.join elm first).join list elm) := by
  simp only [dlistAddFront, Links.next_setPrev, Links.next_setNext, linked, ite_self,
    Option.bind_eq_bind, Option.bind_some, Option.pure_def, Option.some.injEq]
  apply Links.ext
  · rfl
  · exact update_comm other ..

theorem dlistAddBack_eq {last : ρ} (linked : mem.prev list = some last) :
    dlistAddBack mem list elm = dlistAddFront mem last elm := by
  rw [dlistAddBack, linked]
  rfl

theorem dlistRm_eq {before behind : ρ} (prev : mem.prev elm = some before)
    (next : mem.next elm = some behind) : dlistRm mem elm = some (mem.join before behind) := by
  simp only [dlistRm, Links.prev_setNext, Links.next_setNext, ite_self, prev, next,
    Option.bind_eq_bind, Option.bind_some, Option.pure_def]
  rfl

private theorem dlistMerge_eq {rootLast first last : ρ} (filled : dlistEmpty mem list = false)
    (rootPrev : mem.prev root = some rootLast) (next : mem.next list = some first)
    (prev : mem.prev list = some last) (offLast : list ≠ rootLast) (offFirst : list ≠ first) :
    dlistMerge mem root list =
      some (((mem.join rootLast first).join last root).join list list) := by
  simp only [dlistMerge, filled, Bool.false_eq_true, if_false, Links.next_setNext,
    Links.prev_setNext, Links.prev_setPrev, rootPrev, next, prev, offLast, offFirst,
    Option.bind_eq_bind, Option.bind_some, Option.pure_def]
  rfl

private theorem dlistMergeFront_eq {rootFirst first last : ρ} (filled : dlistEmpty mem list = false)
    (rootNext : mem.next root = some rootFirst) (next : mem.next list = some first)
    (prev : mem.prev list = some last) (offFirst : list ≠ rootFirst) (offLast : list ≠ last)
    (apart : root ≠ last) (apart' : list ≠ root) (other : rootFirst ≠ first) :
    dlistMergeFront mem root list =
      some (((mem.join root first).join last rootFirst).join list list) := by
  simp only [dlistMergeFront, filled, Bool.false_eq_true, if_false, Links.next_setNext,
    Links.next_setPrev, Links.prev_setPrev, rootNext, next, prev, offLast, offFirst, apart',
    Option.bind_eq_bind, Option.bind_some, Option.pure_def, Option.some.injEq, dlistInit_eq]
  have swapped : (mem.join last rootFirst).join root first =
      (mem.join root first).join last rootFirst := Links.join_comm apart.symm other
  rw [← swapped]
  rfl

theorem dlistSplit_eq {before last : ρ} (filled : dlistEmpty mem ptr = false) (apart : hdr ≠ ptr)
    (prev : mem.prev ptr = some before) (hdrPrev : mem.prev hdr = some last)
    (offHdr : res ≠ hdr) (offPtr : res ≠ ptr) (offBefore : res ≠ before) :
    dlistSplit mem hdr ptr res =
      some (((mem.join before hdr).join res ptr).join last res) := by
  simp only [dlistSplit, filled, Bool.false_eq_true, if_false, if_true, ne_eq, apart,
    not_false_eq_true, Links.prev_setNext, Links.prev_setPrev, prev, hdrPrev, offHdr, offPtr,
    offHdr.symm, offPtr.symm, Option.bind_eq_bind, Option.bind_some, Option.pure_def,
    Option.some.injEq]
  apply Links.ext
  · exact congrArg (fun next : ρ → Option ρ => update next last (some res))
      (update_comm offBefore ..)
  · -- the link of `res` is stored first, and last in a sequence of joins
    calc update (update (update mem.prev res (some last))
          hdr (some before)) ptr (some res)
        = update (update (update mem.prev hdr (some before))
            res (some last)) ptr (some res) := by rw [update_comm offHdr]
      _ = update (update (update mem.prev hdr (some before))
            ptr (some res)) res (some last) := update_comm offPtr ..

/-! ## Well-formed lists -/

theorem dlistEmpty_iff (ring : mem.Ring list elems) : dlistEmpty mem list = elems.isEmpty := by
  cases elems with
  | nil => simp [dlistEmpty, ring.joined_first.1, ring.joined_last.2]
  | cons first rest =>
      have other : first ≠ list := by
        rintro rfl
        exact ring.head_notMem List.mem_cons_self
      simp [dlistEmpty, ring.joined_first.1, other]

/-- An element is not a list without elements. -/
theorem dlistEmpty_elm (ring : mem.Ring list (front ++ elm :: back)) :
    dlistEmpty mem elm = false := by
  have other : back.head?.getD list ≠ elm := by
    intro same
    have behind := Links.head?_getD_mem list back
    rw [same] at behind
    apply ring.notMem
    rcases List.mem_cons.mp behind with rfl | inside
    · exact List.mem_cons_self
    · exact List.mem_cons_of_mem _ (List.mem_append_right _ inside)
  simp [dlistEmpty, ring.joined_behind.1, other]

/-- The new element stands behind the link it is added to. -/
theorem dlistAddFront_ring (front back : List ρ) (ring : mem.Ring head (front ++ back))
    (off : elm ∉ head :: (front ++ back)) :
    ∃ after, dlistAddFront mem (front.getLast?.getD head) elm = some after ∧
      after.Ring head (front ++ elm :: back) := by
  have before : elm ≠ front.getLast?.getD head := by
    intro same
    have inside := Links.getLast?_getD_mem head front
    rw [← same, List.mem_cons] at inside
    exact off (by simp only [List.mem_cons, List.mem_append]; tauto)
  have behind : elm ≠ back.head?.getD head := by
    intro same
    have inside := Links.head?_getD_mem head back
    rw [← same, List.mem_cons] at inside
    exact off (by simp only [List.mem_cons, List.mem_append]; tauto)
  refine ⟨_, dlistAddFront_eq ring.joined.1 behind, ?_⟩
  rw [Links.join_comm before behind.symm]
  apply ring.splice (List.isChain_singleton elm) rfl rfl
  have moved : (head :: front ++ elm :: back).Perm (elm :: (head :: front ++ back)) :=
    List.perm_middle
  exact moved.nodup_iff.mpr (List.nodup_cons.mpr ⟨off, ring.nodup⟩)

/-- The new element stands in front of the link it is added to. -/
theorem dlistAddBack_ring (front back : List ρ) (ring : mem.Ring head (front ++ back))
    (off : elm ∉ head :: (front ++ back)) :
    ∃ after, dlistAddBack mem (back.head?.getD head) elm = some after ∧
      after.Ring head (front ++ elm :: back) := by
  rw [dlistAddBack_eq ring.joined.2]
  exact dlistAddFront_ring front back ring off

/-- The elements of a list are put between two links of another one, and their head is left with
none. -/
theorem ring_move (front back : List ρ) {first last : ρ} (ring : mem.Ring root (front ++ back))
    (appended : mem.Ring list others) (apart : (root :: (front ++ back)).Disjoint (list :: others))
    (starts : others.head? = some first) (ends : others.getLast? = some last) :
    let after := ((mem.join (front.getLast?.getD root) first).join last
      (back.head?.getD root)).join list list
    after.Ring root (front ++ (others ++ back)) ∧ after.Ring list [] := by
  have moved :
      (root :: (front ++ (others ++ back))).Perm ((root :: (front ++ back)) ++ others) := by
    rw [List.cons_append, List.append_assoc]
    exact (List.perm_append_comm.append_left front).cons root
  have distinct : (root :: (front ++ (others ++ back))).Nodup := by
    apply moved.nodup_iff.mpr
    refine List.nodup_append.mpr ⟨ring.nodup, (List.nodup_cons.mp appended.nodup).2, ?_⟩
    rintro cell inside _ other rfl
    exact apart inside (List.mem_cons_of_mem _ other)
  have off : list ∉ root :: (front ++ (others ++ back)) := by
    rw [moved.mem_iff, List.mem_append, not_or]
    exact ⟨fun inside => apart inside List.mem_cons_self, appended.head_notMem⟩
  exact ⟨(ring.splice appended.run starts ends distinct).join_off off off,
    Links.ring_join_self _ list⟩

theorem dlistMerge_ring (ring : mem.Ring root elems) (appended : mem.Ring list others)
    (apart : (root :: elems).Disjoint (list :: others)) :
    ∃ after, dlistMerge mem root list = some after ∧ after.Ring root (elems ++ others) ∧
      after.Ring list [] := by
  cases others with
  | nil =>
      refine ⟨mem, if_pos (dlistEmpty_iff appended), ?_, appended⟩
      rwa [List.append_nil]
  | cons first rest =>
      have filled : dlistEmpty mem list = false := dlistEmpty_iff appended
      have ends := List.getLast?_eq_some_getLast (List.cons_ne_nil first rest)
      have whole : mem.Ring list ([] ++ first :: rest) := appended
      have prev := whole.prev_head
      have offFirst : list ≠ first := by
        rintro rfl
        exact appended.head_notMem List.mem_cons_self
      have offLast : list ≠ elems.getLast?.getD root := fun same =>
        apart (same ▸ Links.getLast?_getD_mem root elems) List.mem_cons_self
      refine ⟨_, dlistMerge_eq filled ring.joined_last.2 appended.joined_first.1 prev offLast
        offFirst, ?_⟩
      have moved := ring_move elems [] (by rwa [List.append_nil]) appended
        (by rwa [List.append_nil]) rfl ends
      simpa using moved

theorem dlistMergeFront_ring (ring : mem.Ring root elems) (appended : mem.Ring list others)
    (apart : (root :: elems).Disjoint (list :: others)) :
    ∃ after, dlistMergeFront mem root list = some after ∧ after.Ring root (others ++ elems) ∧
      after.Ring list [] := by
  cases others with
  | nil => exact ⟨mem, if_pos (dlistEmpty_iff appended), ring, appended⟩
  | cons first rest =>
      have filled : dlistEmpty mem list = false := dlistEmpty_iff appended
      have ends := List.getLast?_eq_some_getLast (List.cons_ne_nil first rest)
      have whole : mem.Ring list ([] ++ first :: rest) := appended
      have prev := whole.prev_head
      have inside := List.getLast_mem (List.cons_ne_nil first rest)
      have behind := Links.head?_getD_mem root elems
      have offFirst : list ≠ elems.head?.getD root := fun same =>
        apart (same ▸ behind) List.mem_cons_self
      have offLast : list ≠ (first :: rest).getLast (List.cons_ne_nil first rest) := fun same =>
        appended.head_notMem (same ▸ inside)
      have notLast : root ≠ (first :: rest).getLast (List.cons_ne_nil first rest) := fun same =>
        apart List.mem_cons_self (List.mem_cons_of_mem _ (same ▸ inside))
      have notRoot : list ≠ root := fun same => apart List.mem_cons_self (same ▸ List.mem_cons_self)
      have notFirst : elems.head?.getD root ≠ first := fun same =>
        apart behind (same ▸ List.mem_cons_of_mem _ List.mem_cons_self)
      refine ⟨_, dlistMergeFront_eq filled ring.joined_first.1 appended.joined_first.1 prev
        offFirst offLast notLast notRoot notFirst, ?_⟩
      exact ring_move [] elems ring appended apart rfl ends

theorem dlistSplit_ring (ring : mem.Ring hdr (front ++ ptr :: back)) (empty : mem.Ring res [])
    (off : res ∉ hdr :: (front ++ ptr :: back)) :
    ∃ after, dlistSplit mem hdr ptr res = some after ∧ after.Ring hdr front ∧
      after.Ring res (ptr :: back) := by
  have apart : hdr ≠ ptr := by
    rintro rfl
    exact ring.notMem List.mem_cons_self
  have before := Links.getLast?_getD_mem hdr front
  have offHdr : res ≠ hdr := fun same => off (same ▸ List.mem_cons_self)
  have offPtr : res ≠ ptr := fun same => off (by simp [same])
  have offBefore : res ≠ front.getLast?.getD hdr := by
    intro same
    rw [← same, List.mem_cons] at before
    exact off (by simp only [List.mem_cons, List.mem_append]; tauto)
  have lower := ring.nodup
  rw [← List.cons_append] at lower
  obtain ⟨-, upper, disjoint⟩ := List.nodup_append.mp lower
  have inside := List.getLast_mem (List.cons_ne_nil ptr back)
  refine ⟨_, dlistSplit_eq (dlistEmpty_elm ring) apart ring.joined.2 ring.prev_head offHdr offPtr
    offBefore,
    ?_, ?_⟩
  · have cut := ring
    rw [← List.append_nil (ptr :: back)] at cut
    have left := cut.cut (ptr :: back)
    rw [List.append_nil] at left
    have offRes : res ∉ hdr :: front := fun again => off (List.mem_append_left _ again)
    refine (left.join_off offRes ?_).join_off ?_ offRes
    · exact fun again => disjoint ptr again ptr List.mem_cons_self rfl
    · exact fun again => disjoint _ again _ inside rfl
  · have kept : (Links.join mem (front.getLast?.getD hdr) hdr).Ring res ([] ++ []) := by
      apply empty.join_off
      · exact fun again => offBefore (List.mem_singleton.mp again).symm
      · exact fun again => offHdr (List.mem_singleton.mp again).symm
    have run : (ptr :: back).IsChain (Links.join mem (front.getLast?.getD hdr) hdr).Joined := by
      apply Links.isChain_join ring.run.right_of_append
      · exact fun again => disjoint _ before _ (List.dropLast_subset _ again) rfl
      · exact fun again => disjoint hdr List.mem_cons_self hdr (List.mem_of_mem_tail again) rfl
    have ends := List.getLast?_eq_some_getLast (List.cons_ne_nil ptr back)
    have spliced := kept.splice run rfl ends (by
      rw [List.append_nil]
      exact List.nodup_cons.mpr ⟨fun again => off (by simp_all), upper⟩)
    simpa using spliced

end Dlinks

end Tvntd
