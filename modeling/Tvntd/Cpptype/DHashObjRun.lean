import Tvntd.Cpptype.DHashObjFind

/-! # Runs of a `DHashObj`

A run takes the operations of one table in any order and records which insertion
placed each link. An object may change its keys while it is not linked, and its
`m_chain` may be held by another container from the start.

Along a run that meets `Keeps` no operation aborts and every lookup finds.
-/

namespace Tvntd

open Function

namespace DHashObj

/-- The calls of the container. -/
inductive Op where
  | insertKey64 (obj : Obj)
  | insertKeystr (obj : Obj)
  | insertChain (obj : Obj) (p : Nat)
  | removeObj (obj : Obj)
  | removeChain (obj : Obj) (p : Nat)
  | lookup64 (key : Key64)
  | lookupStr (key : CStr)
  | lookupChain (p : Nat)
  | rekey (obj : Obj) (key64 : Key64) (keystr : CStr)

/-- A table and the insertions that are not removed yet. -/
structure Tracked where
  self : DHashObj
  linked : List Linked

def rekeyed (mem : ObjMem) (obj : Obj) (key64 : Key64) (keystr : CStr) : ObjMem :=
  { mem with
    objKey64 := update mem.objKey64 obj key64
    objKeystr := update mem.objKeystr obj keystr }

def step (cmp64 : Key64 → Key64 → Int) (state : Tracked) : Op → Option (Tracked × Option Obj)
  | .insertKey64 obj =>
      (state.self.insertKey64 obj).map fun result =>
        (⟨result.2, state.linked ++ [.key64 obj]⟩, none)
  | .insertKeystr obj =>
      (state.self.insertKeystr obj).map fun result =>
        (⟨result.2, state.linked ++ [.keystr obj]⟩, none)
  | .insertChain obj p =>
      (state.self.insertChain obj p).map fun result =>
        (⟨result.2, state.linked ++ [.chain obj p]⟩, none)
  | .removeObj obj =>
      (state.self.removeObj obj).map fun next =>
        (⟨next, state.linked.eraseP fun l => l.link = .chain obj⟩, none)
  | .removeChain obj p =>
      (state.self.removeChain obj p).map fun next =>
        (⟨next, state.linked.erase (.chain obj p)⟩, none)
  | .lookup64 key =>
      (state.self.lookup64 cmp64 key).map fun result => (⟨result.2, state.linked⟩, result.1)
  | .lookupStr key =>
      (state.self.lookupStr key).map fun result => (⟨result.2, state.linked⟩, result.1)
  | .lookupChain p =>
      (state.self.lookupChain cmp64 p).map fun result => (⟨result.2, state.linked⟩, result.1)
  | .rekey obj key64 keystr =>
      some (⟨⟨rekeyed state.self.mem obj key64 keystr, state.self.mTab⟩, state.linked⟩, none)

def machine (cmp64 : Key64 → Key64 → Int) : Machine Tracked Op (Option Obj) := ⟨step cmp64⟩

/-- A new table, over any objects. -/
def Initial (state : Tracked) : Prop :=
  state.linked = [] ∧ ∃ mem size, 0 < size ∧ state.self = ⟨mem, dhashInit size⟩

/-- What the callers see to: free links are inserted, links of this table are removed, keys are
constant while their object is linked, and a link that is looked up refers to an object. -/
def Legal (state : Tracked) : Op → Prop
  | .insertKey64 obj | .insertKeystr obj => state.self.mem.mChain obj = false
  | .insertChain _ p => state.self.mem.olPtr p = none
  | .removeObj obj => .key64 obj ∈ state.linked ∨ .keystr obj ∈ state.linked
  | .removeChain obj p => .chain obj p ∈ state.linked
  | .lookup64 _ | .lookupStr _ => True
  | .lookupChain p => state.self.mem.olPtr p ≠ none
  | .rekey obj _ _ => ∀ l ∈ state.linked, l.obj ≠ obj

instance (state : Tracked) : ∀ op, Decidable (Legal state op)
  | .insertKey64 obj | .insertKeystr obj =>
      inferInstanceAs (Decidable (state.self.mem.mChain obj = false))
  | .insertChain _ p => inferInstanceAs (Decidable (state.self.mem.olPtr p = none))
  | .removeObj obj =>
      inferInstanceAs (Decidable (.key64 obj ∈ state.linked ∨ .keystr obj ∈ state.linked))
  | .removeChain obj p => inferInstanceAs (Decidable (.chain obj p ∈ state.linked))
  | .lookup64 _ | .lookupStr _ => isTrue trivial
  | .lookupChain p => inferInstanceAs (Decidable (state.self.mem.olPtr p ≠ none))
  | .rekey obj _ _ => inferInstanceAs (Decidable (∀ l ∈ state.linked, l.obj ≠ obj))

/-- The objects of separate links are anchored by their `m_chain` when a separate link is
inserted or the table is searched, and a search that rehashes keeps every link in its slot. -/
def Keeps (state : Tracked) : Op → Prop
  | .insertKey64 _ | .insertKeystr _ => state.self.mTab.dhElmCnt + 1 < 2 ^ 31
  | .insertChain obj _ =>
      state.self.mTab.dhElmCnt + 1 < 2 ^ 31 ∧ state.self.mem.mChain obj = true
  | .lookup64 key =>
      Anchored state.self.mem state.linked ∧
        (LongWalk (keyed state.self.mem key)
            (state.self.mTab.dhBucket (objHash64 state.self.mTab.dhBkSize key)) →
          RehashKeeps state.self state.linked)
  | .lookupStr key =>
      Anchored state.self.mem state.linked ∧
        (LongWalk (named state.self.mem key)
            (state.self.mTab.dhBucket (objHashStrfn state.self.mTab.dhBkSize key.bytes)) →
          RehashKeeps state.self state.linked)
  | .lookupChain p =>
      Anchored state.self.mem state.linked ∧
        ∀ obj, state.self.mem.olPtr p = some obj → state.self.mem.mChain obj = true ∧
          (LongWalk (keyed state.self.mem (state.self.mem.objKey64 obj))
              (state.self.mTab.dhBucket
                (objHash64 state.self.mTab.dhBkSize (state.self.mem.objKey64 obj))) →
            RehashKeeps state.self state.linked)
  | .removeObj _ | .removeChain _ _ | .rekey _ _ _ => True

/-- The object is linked by its 64-bit key, at its own link or at a separate one. -/
def Linked64 (linked : List Linked) (obj : Obj) : Prop :=
  .key64 obj ∈ linked ∨ ∃ p, .chain obj p ∈ linked

/-- A lookup returns only linked objects with the key, and it returns one if an object with the
key was linked by the matching insertion. -/
def Finds (state : Tracked) (answer : Option Obj) : Op → Prop
  | .lookup64 key =>
      (∀ obj, answer = some obj →
        state.self.mem.objKey64 obj = key ∧ ∃ l ∈ state.linked, l.obj = obj) ∧
      ∀ obj, Linked64 state.linked obj → state.self.mem.objKey64 obj = key → answer.isSome
  | .lookupStr key =>
      (∀ obj, answer = some obj →
        state.self.mem.objKeystr obj = key ∧ ∃ l ∈ state.linked, l.obj = obj) ∧
      ∀ obj, .keystr obj ∈ state.linked → state.self.mem.objKeystr obj = key → answer.isSome
  | .lookupChain p =>
      ∀ own, state.self.mem.olPtr p = some own →
        (∀ obj, answer = some obj → state.self.mem.objKey64 obj = state.self.mem.objKey64 own ∧
          ∃ l ∈ state.linked, l.obj = obj) ∧
        ∀ obj, Linked64 state.linked obj →
          state.self.mem.objKey64 obj = state.self.mem.objKey64 own → answer.isSome
  | _ => True

variable {cmp64 : Key64 → Key64 → Int}

theorem Holds.rekeyed {self : DHashObj} {all : List Linked} (holds : Holds self all) {obj : Obj}
    (free : ∀ l ∈ all, l.obj ≠ obj) (key64 : Key64) (keystr : CStr) :
    Holds ⟨DHashObj.rekeyed self.mem obj key64 keystr, self.mTab⟩ all where
  positive := holds.positive
  chained := by
    apply holds.chained.congr
    intro elm member
    obtain ⟨l, inside, rfl⟩ := List.mem_map.mp member
    have key := fun same : l.obj ≠ obj => update_of_ne same key64 self.mem.objKey64
    have name := fun same : l.obj ≠ obj => update_of_ne same keystr self.mem.objKeystr
    rw [Linked.slotOf_link _ _ holds.chained.nodup_all inside,
      Linked.slotOf_link _ _ holds.chained.nodup_all inside]
    cases l with
    | key64 o => exact congrArg (objHash64 _) (key (free _ inside))
    | keystr o => exact congrArg (fun k : CStr => objHashStrfn _ k.bytes) (name (free _ inside))
    | chain o p => exact congrArg (objHash64 _) (key (free _ inside))
  count := holds.count
  refers := by
    intro l inside
    have refers := holds.refers l inside
    cases l with
    | key64 o => exact refers
    | keystr o => exact refers
    | chain o p => exact refers

private theorem slot_of_linked64 {mem : ObjMem} {linked : List Linked} {obj : Obj}
    (links : Linked64 linked obj) (size : Nat) :
    ∃ l ∈ linked, l.obj = obj ∧ l.slot mem size = objHash64 size (mem.objKey64 obj) := by
  rcases links with own | ⟨p, separate⟩
  · exact ⟨_, own, rfl, rfl⟩
  · exact ⟨_, separate, rfl, rfl⟩

theorem erase_of_removed {all : List Linked} (nodup : (all.map Linked.link).Nodup) {obj : Obj}
    {l : Linked} (member : l ∈ all) (own : l.link = .chain obj) :
    all.eraseP (fun k => k.link = .chain obj) = all.erase l := by
  apply List.eraseP_eq_erase_of_find?
  have some : (all.find? fun k => k.link = .chain obj).isSome := by
    rw [List.find?_isSome]
    exact ⟨l, member, decide_eq_true own⟩
  obtain ⟨k, found⟩ := Option.isSome_iff_exists.mp some
  have at_ : decide (k.link = .chain obj) = true :=
    List.find?_some (p := fun k : Linked => decide (k.link = .chain obj)) found
  have same : k.link = l.link := (of_decide_eq_true at_).trans own.symm
  rw [found, List.inj_on_of_nodup_map nodup (List.mem_of_find?_eq_some found) member same]

/-- A lookup that answers with the objects of a key, and answers where one of them is in the slot of
the key, finds the objects that are linked by a key of 64 bits. -/
theorem finds64 {mem : ObjMem} {linked : List Linked} {key : Key64} {answer : Option Obj}
    (size : Nat)
    (only : ∀ obj, answer = some obj → ∃ l ∈ linked, mem.objKey64 l.obj = key ∧ l.obj = obj)
    (found : ∀ l ∈ linked, mem.objKey64 l.obj = key → l.slot mem size = objHash64 size key →
      answer.isSome) :
    (∀ obj, answer = some obj → mem.objKey64 obj = key ∧ ∃ l ∈ linked, l.obj = obj) ∧
      ∀ obj, Linked64 linked obj → mem.objKey64 obj = key → answer.isSome := by
  refine ⟨?_, ?_⟩
  · intro obj answered
    obtain ⟨l, member, has, rfl⟩ := only obj answered
    exact ⟨has, l, member, rfl⟩
  · intro obj links has
    obtain ⟨l, member, rfl, placed⟩ := slot_of_linked64 links size
    exact found l member has (by rw [placed, has])

/-- One operation that meets `Keeps` does not abort, finds, and keeps every link in its slot. -/
theorem step_of_holds (exactly : ∀ own key, cmp64 own key = 0 ↔ own = key) {state : Tracked}
    {op : Op} (holds : Holds state.self state.linked) (legal : Legal state op)
    (keeps : Keeps state op) :
    ∃ next answer, (machine cmp64).step state op = some (next, answer) ∧
      Holds next.self next.linked ∧ Finds state answer op := by
  cases op with
  | insertKey64 obj =>
      obtain ⟨index, next, inserted, -, still⟩ := holds.insertKey64 legal keeps
      exact ⟨⟨next, _⟩, none, by simp only [machine, step, inserted, Option.map_some], still,
        trivial⟩
  | insertKeystr obj =>
      obtain ⟨index, next, inserted, -, still⟩ := holds.insertKeystr legal keeps
      exact ⟨⟨next, _⟩, none, by simp only [machine, step, inserted, Option.map_some], still,
        trivial⟩
  | insertChain obj p =>
      obtain ⟨index, next, inserted, -, still⟩ := holds.insertChain legal keeps.2 keeps.1
      exact ⟨⟨next, _⟩, none, by simp only [machine, step, inserted, Option.map_some], still,
        trivial⟩
  | removeObj obj =>
      have linked : ∃ l ∈ state.linked, l.link = .chain obj := by
        rcases legal with own | own
        · exact ⟨_, own, rfl⟩
        · exact ⟨_, own, rfl⟩
      obtain ⟨l, member, own⟩ := linked
      obtain ⟨next, removed, -, still⟩ := holds.removeObj member own
      rw [← erase_of_removed holds.chained.nodup_all member own] at still
      exact ⟨⟨next, _⟩, none, by simp only [machine, step, removed, Option.map_some], still,
        trivial⟩
  | removeChain obj p =>
      obtain ⟨next, removed, -, still⟩ := holds.removeChain legal
      exact ⟨⟨next, _⟩, none, by simp only [machine, step, removed, Option.map_some], still,
        trivial⟩
  | lookup64 key =>
      obtain ⟨answer, next, looked, -, still, only, found⟩ :=
        holds.lookup64 keeps.1 key (fun _ _ => exactly _ _) keeps.2
      exact ⟨⟨next, _⟩, answer, by simp only [machine, step, looked, Option.map_some], still,
        finds64 _ only found⟩
  | lookupStr key =>
      obtain ⟨answer, next, looked, -, still, only, found⟩ := holds.lookupStr keeps.1 key keeps.2
      refine ⟨⟨next, _⟩, answer, by simp only [machine, step, looked, Option.map_some], still,
        ?_, ?_⟩
      · intro obj answered
        obtain ⟨l, member, has, rfl⟩ := only obj answered
        exact ⟨has, l, member, rfl⟩
      · intro obj links has
        refine found _ links has ?_
        change objHashStrfn _ (state.self.mem.objKeystr obj).bytes = _
        rw [has]
  | lookupChain p =>
      obtain ⟨own, refers⟩ := Option.ne_none_iff_exists'.mp legal
      have own_ := keeps.2 own refers
      obtain ⟨answer, next, looked, -, still, only, found⟩ :=
        holds.lookupChain exactly keeps.1 refers own_.1 own_.2
      refine ⟨⟨next, _⟩, answer, by simp only [machine, step, looked, Option.map_some], still, ?_⟩
      intro other same
      rw [refers, Option.some.injEq] at same
      subst same
      exact finds64 _ only found
  | rekey obj key64 keystr =>
      exact ⟨_, none, rfl, holds.rekeyed legal key64 keystr, trivial⟩

/-- Every link is in its slot along a run that meets `Keeps`. -/
theorem holds_of_reached (exactly : ∀ own key, cmp64 own key = 0 ↔ own = key) {state : Tracked}
    (reached : (machine cmp64).Reached Initial (fun state op => Legal state op ∧ Keeps state op)
      state) : Holds state.self state.linked := by
  have preserves : (machine cmp64).Preserves (fun state op => Legal state op ∧ Keeps state op)
      fun state => Holds state.self state.linked := by
    intro state op next answer holds guarded stepped
    obtain ⟨after, result, taken, still, -⟩ := step_of_holds exactly holds guarded.1 guarded.2
    rw [stepped, Option.some.injEq, Prod.mk.injEq] at taken
    exact taken.1 ▸ still
  refine preserves.reached ?_ reached
  · rintro ⟨self, linked⟩ ⟨none, mem, size, positive, new⟩
    change linked = [] at none
    change self = _ at new
    subst none new
    exact holds_init mem positive

end DHashObj

end Tvntd
