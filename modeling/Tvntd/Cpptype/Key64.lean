import Mathlib.Data.BitVec
import Tvntd.Cpptype.Uint64KvMap
import Tvntd.Cpptype.DHashObjRun

/-! # Tables under 64-bit keys

`Uint64KvMap` and a `DHashObj` used by 64-bit keys choose a bucket by the whole
key and compare by the narrowed difference. A lookup of one key may therefore
take an entry under another key of the same bucket with the same low half. Both
containers keep to the exact key precisely while that does not happen.
-/

namespace Tvntd

namespace DHashObj

/-- The object of the link agrees with the key in the low 32 bits. -/
def lowKeyed (mem : ObjMem) (key : Key64) (link : Link) : Bool :=
  (mem.objCptr link).any fun obj => (mem.key64 obj).setWidth 32 = key.setWidth 32

/-- The first link in the bucket of a key whose object agrees with the key in the low 32 bits,
if there is one, belongs to an object with that key. -/
def Unmistaken (state : Tracked) : Op → Prop
  | .lookup64 key => ∀ obj,
      objPtr state.self.mem ((state.self.mTab.dhBucket (objHash64 state.self.mTab.dhBkSize key)).find?
        (lowKeyed state.self.mem key)) = some obj → state.self.mem.objKey64 obj = key
  | _ => True

/-- A lookup touches an object with exactly its key, and a removal no link but that of its
object. -/
def TouchesOwn (state : Tracked) : Op → Prop
  | .lookup64 key => ∀ next answer, (machine objCompare64).step state (.lookup64 key) =
      some (next, answer) → ∀ obj, answer = some obj → state.self.mem.objKey64 obj = key
  | .removeObj obj => ∀ next answer, (machine objCompare64).step state (.removeObj obj) =
      some (next, answer) → ∀ i link, link ≠ .chain obj →
        (link ∈ next.self.mTab.dhBucket i ↔ link ∈ state.self.mTab.dhBucket i)
  | _ => True

/-- The narrowed comparison with a seed decides whether the low halves agree. -/
theorem compare_seed64 (mem : ObjMem) (key : Key64) (link : Link) (order : Int)
    (compared : dhHashCmpKey64 objCompare64 mem link (.seed64 key) = some order) :
    order = 0 ↔ lowKeyed mem key link = true := by
  obtain ⟨obj, linked, compared⟩ := Option.bind_eq_some_iff.mp compared
  have zero := objCompare64_eq_zero (mem.key64 obj) key
  cases compared
  obtain ⟨owner, points, checked⟩ := Option.bind_eq_some_iff.mp linked
  have same : owner = obj := by
    cases held : mem.chained owner with
    | true =>
        rw [held, if_pos rfl, Option.some.injEq] at checked
        exact checked
    | false =>
        rw [held, if_neg Bool.false_ne_true] at checked
        cases checked
  subst same
  unfold lowKeyed
  rw [points]
  exact zero.trans decide_eq_true_iff.symm

private theorem lookup64_some {self next : DHashObj} {key : Key64} {answer : Option Obj}
    (returned : self.lookup64 objCompare64 key = some (answer, next)) :
    answer = objPtr self.mem ((self.mTab.dhBucket (objHash64 self.mTab.dhBkSize key)).find?
      (lowKeyed self.mem key)) := by
  obtain ⟨⟨found, after⟩, looked, same⟩ := Option.map_eq_some_iff.mp returned
  cases same
  rw [dhashFindElm_some rfl (compare_seed64 self.mem key) looked]
  rfl

private theorem touchesOwn_iff {state : Tracked} {op : Op} {after : Tracked × Option Obj}
    (stepped : (machine objCompare64).step state op = some after) :
    TouchesOwn state op ↔ Unmistaken state op := by
  cases op with
  | lookup64 key =>
      obtain ⟨result, looked, -⟩ := Option.map_eq_some_iff.mp stepped
      have answered := lookup64_some looked
      constructor
      · intro touches obj found
        refine touches _ _ (congrArg (Option.map _) looked) obj ?_
        exact answered.trans found
      · intro unmistaken next answer again obj found
        obtain ⟨other, lookedAgain, same⟩ := Option.map_eq_some_iff.mp again
        have here := lookup64_some lookedAgain
        cases same
        exact unmistaken obj (here.symm.trans found)
  | removeObj obj =>
      refine iff_of_true ?_ trivial
      intro next answer removed i link other
      obtain ⟨result, taken, same⟩ := Option.map_eq_some_iff.mp removed
      cases same
      unfold removeObj at taken
      by_cases held : state.self.mem.mChain obj = true
      · rw [if_pos held, Option.some.injEq] at taken
        subst taken
        exact List.mem_erase_of_ne other
      · rw [if_neg held] at taken
        cases taken
  | insertKey64 obj => exact Iff.rfl
  | insertKeystr obj => exact Iff.rfl
  | insertChain obj p => exact Iff.rfl
  | removeChain obj p => exact Iff.rfl
  | lookupStr key => exact Iff.rfl
  | lookupChain p => exact Iff.rfl
  | rekey obj key64 keystr => exact Iff.rfl

end DHashObj

/-- Both containers keep to the exact key in a run precisely when no step of the run takes an
entry under another key for one under its own, and no count overflows. -/
theorem key64_exact_iff {size : Nat} (positive : 0 < size) (ops : List Uint64KvMap.Op)
    {start : DHashObj.Tracked} {calls : List DHashObj.Op}
    {final : DHashObj.Tracked × List (Option Obj)}
    (ran : (DHashObj.machine objCompare64).run start calls = some final) :
    (Uint64KvMap.IsStack size ops ↔
      Uint64KvMap.machine.Meets Uint64KvMap.Careful (shashInit size) ops) ∧
    ((DHashObj.machine objCompare64).Meets DHashObj.TouchesOwn start calls ↔
      (DHashObj.machine objCompare64).Meets DHashObj.Unmistaken start calls) := by
  constructor
  · exact Uint64KvMap.isStack_iff_careful positive ops
  · exact Machine.meets_congr_of_run (fun _ _ _ stepped => DHashObj.touchesOwn_iff stepped) ran

/-- One entry, and an empty table whose objects are named by their numbers. -/
theorem key64_exact_iff_small :
    (Uint64KvMap.IsStack 16 [.insert 3 7, .value 3] ↔
      Uint64KvMap.machine.Meets Uint64KvMap.Careful (shashInit 16) [.insert 3 7, .value 3]) ∧
    ((DHashObj.machine objCompare64).Meets DHashObj.TouchesOwn
        ⟨⟨⟨BitVec.ofNat 64, fun _ => ⟨[], CStr.ended_nil⟩, fun _ => false, fun _ => none⟩,
          dhashInit 4⟩, []⟩ [.insertKey64 3, .lookup64 3] ↔
      (DHashObj.machine objCompare64).Meets DHashObj.Unmistaken
        ⟨⟨⟨BitVec.ofNat 64, fun _ => ⟨[], CStr.ended_nil⟩, fun _ => false, fun _ => none⟩,
          dhashInit 4⟩, []⟩ [.insertKey64 3, .lookup64 3]) :=
  key64_exact_iff (by decide) _ rfl

/-- The value under key `0` is returned for key `2 ^ 32`. -/
theorem value_of_other_key :
    ¬ Uint64KvMap.IsStack 16 [.insert 0 7, .value (2 ^ 32)] := by
  rintro ⟨final, ran, -⟩
  have answers : (Uint64KvMap.machine.run (shashInit 16) [.insert 0 7, .value (2 ^ 32)]).map
      Prod.snd = some [.silent, ⟨some ⟨0, 7, nullptr⟩, nullptr, 7⟩] := by decide
  have expected : (Machine.specRun Uint64KvMap.next [] [.insert 0 7, .value (2 ^ 32)]).2 =
      [.silent, ⟨none, nullptr, nullptr⟩] := by decide
  rw [ran, Option.map_some, Option.some.injEq, expected] at answers
  exact absurd answers (by decide)

end Tvntd
