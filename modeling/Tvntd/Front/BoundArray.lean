import Tvntd.Lib.Service
import Mathlib.Data.List.Basic
import Mathlib.Data.List.Induction
import Mathlib.Data.List.Nodup
import Mathlib.Data.List.TakeWhile
import Mathlib.Logic.Function.Iterate
import Mathlib.Tactic.Common
import Mathlib.Algebra.Group.Nat.Defs
import Mathlib.Algebra.Group.Int.Defs

/-! # Arrays with a bound

A `BoundArray` keeps the entries that were pushed last, each under its key. A push
makes room first, then looks for an older entry of its key, moves the entries
behind it down by one, and appends the new one.
-/

namespace Tvntd.BoundArray

variable {Key Elm : Type} [DecidableEq Key]

structure Entry (Key Elm : Type) where
  key : Key
  elm : Elm
deriving DecidableEq

/-- The inner loop of `push`: so many entries are replaced by the next ones. -/
def shiftDown (data : List (Entry Key Elm)) : Nat → Nat → List (Entry Key Elm)
  | 0, _ => data
  | count + 1, i =>
      match data[i + 1]? with
      | some next => shiftDown (data.set i next) count (i + 1)
      | none => shiftDown data count (i + 1)

/-- The outer loop of `push`, with so many positions left. `none` is the return without a push. -/
def dropKey (key : Key) (data : List (Entry Key Elm)) : Nat → Nat → Option (List (Entry Key Elm))
  | 0, _ => some data
  | count + 1, i =>
      if data[i]?.map Entry.key = some key then
        if count = 0 then none else some (shiftDown data count i).dropLast
      else dropKey key data count (i + 1)

def push (maxLen : Nat) (data : List (Entry Key Elm)) (key : Key) (elm : Elm) :
    List (Entry Key Elm) :=
  let data := if data.length = maxLen then data.tail else data
  match dropKey key data data.length 0 with
  | none => data
  | some data => data ++ [⟨key, elm⟩]

def pop (data : List (Entry Key Elm)) : List (Entry Key Elm) × Option (Entry Key Elm) :=
  (data.dropLast, data.getLast?)

/-- The loop of `popElm`, with so many positions left. -/
def popFrom (key : Key) (data : List (Entry Key Elm)) :
    Nat → Nat → List (Entry Key Elm) × Option (Entry Key Elm)
  | 0, _ => (data, none)
  | count + 1, i =>
      if data[i]?.map Entry.key = some key then (List.dropLast^[count + 1] data, data[i]?)
      else popFrom key data count (i + 1)

def popElm (data : List (Entry Key Elm)) (key : Key) :
    List (Entry Key Elm) × Option (Entry Key Elm) :=
  popFrom key data data.length 0

inductive Request (Key Elm : Type) where
  | push (key : Key) (elm : Elm)
  | pop
  | popElm (key : Key)

/-- The calls on an array; a push returns nothing. -/
def service (maxLen : Nat) :
    Service (List (Entry Key Elm)) (Request Key Elm) (Option (Entry Key Elm)) where
  serve data
    | .push key elm => (push maxLen data key elm, none)
    | .pop => pop data
    | .popElm key => popElm data key

/-! ## What is asked of a call -/

/-- What stays at a push: the first entry goes where there is no room, and no entry of the key. -/
def kept (maxLen : Nat) (data : List (Entry Key Elm)) (key : Key) : List (Entry Key Elm) :=
  if key ∈ data.map Entry.key then data.filter fun entry => decide (entry.key ≠ key)
  else if data.length = maxLen then data.tail
  else data

def expected (maxLen : Nat) (data : List (Entry Key Elm)) :
    Request Key Elm → List (Entry Key Elm) × Option (Entry Key Elm)
  | .push key elm => (kept maxLen data key ++ [⟨key, elm⟩], none)
  | .pop => (data.dropLast, data.getLast?)
  | .popElm key => (data.takeWhile fun entry => decide (entry.key ≠ key),
      data.find? fun entry => decide (entry.key = key))

abbrev History (Key Elm : Type) := List (Request Key Elm × Option (Entry Key Elm))

/-- The last push of every key, in the order of time. -/
def lastPushes (history : History Key Elm) : List (Entry Key Elm) :=
  history.foldl
    (fun pushes call =>
      match call.1 with
      | .push key elm => pushes.filter (fun entry => decide (entry.key ≠ key)) ++ [⟨key, elm⟩]
      | .pop => pushes
      | .popElm _ => pushes) []

/-- No more entries than the bound, no key twice, and last pushes in the order of time. -/
structure Sound (maxLen : Nat) (state : List (Entry Key Elm) × History Key Elm) : Prop where
  bounded : state.1.length ≤ maxLen
  distinct : (state.1.map Entry.key).Nodup
  ordered : state.1.Sublist (lastPushes state.2)

/-- A call does what is expected, and leaves a sound array. -/
structure Right (maxLen : Nat) (before : List (Entry Key Elm) × History Key Elm)
    (request : Request Key Elm) (after : List (Entry Key Elm) × History Key Elm)
    (reply : Option (Entry Key Elm)) : Prop where
  done : (after.1, reply) = expected maxLen before.1 request
  sound : Sound maxLen after

/-- An entry of the key that is pushed is the first of a full array, and not the last of another
unless it has the element. -/
def Careful (maxLen : Nat) (data : List (Entry Key Elm)) : Request Key Elm → Prop
  | .push key elm => ∀ entry ∈ data, entry.key = key →
      if data.length = maxLen then data.head? = some entry
      else data.getLast? = some entry → entry.elm = elm
  | .pop => True
  | .popElm _ => True

instance [DecidableEq Elm] (maxLen : Nat) (data : List (Entry Key Elm)) :
    ∀ request, Decidable (Careful maxLen data request)
  | .push key elm => inferInstanceAs (Decidable (∀ entry ∈ data, entry.key = key →
      if data.length = maxLen then data.head? = some entry
      else data.getLast? = some entry → entry.elm = elm))
  | .pop => inferInstanceAs (Decidable True)
  | .popElm _ => inferInstanceAs (Decidable True)

/-! ## The loops -/

variable {key : Key}

omit [DecidableEq Key] in
private theorem dropLast_shiftDown (front : List (Entry Key Elm)) (entry : Entry Key Elm)
    (later : List (Entry Key Elm)) :
    (shiftDown (front ++ entry :: later) later.length front.length).dropLast = front ++ later := by
  induction later generalizing front entry with
  | nil => simp [shiftDown]
  | cons next rest ih =>
      have behind : (front ++ entry :: next :: rest)[front.length + 1]? = some next := by simp
      have moved : (front ++ entry :: next :: rest).set front.length next =
          (front ++ [next]) ++ next :: rest := by simp
      have length : front.length + 1 = (front ++ [next]).length := by simp
      rw [List.length_cons, shiftDown, behind]
      change (shiftDown ((front ++ entry :: next :: rest).set front.length next) _ _).dropLast = _
      rw [moved, length, ih, List.append_assoc]
      rfl

theorem dropKey_of_absent {rest : List (Entry Key Elm)} (absent : ∀ entry ∈ rest, entry.key ≠ key)
    (front : List (Entry Key Elm)) :
    dropKey key (front ++ rest) rest.length front.length = some (front ++ rest) := by
  induction rest generalizing front with
  | nil => rfl
  | cons entry rest ih =>
      have here : (front ++ entry :: rest)[front.length]? = some entry := by simp
      have other := absent entry List.mem_cons_self
      have later := ih (fun next inside => absent next (List.mem_cons_of_mem _ inside))
        (front ++ [entry])
      rw [List.append_assoc, List.length_append] at later
      rw [List.length_cons, dropKey, here, Option.map_some, if_neg (by simpa using other)]
      exact later

private theorem dropKey_of_found {before : List (Entry Key Elm)}
    (absent : ∀ entry ∈ before, entry.key ≠ key) {entry : Entry Key Elm} (found : entry.key = key)
    (later front : List (Entry Key Elm)) :
    dropKey key (front ++ (before ++ entry :: later)) (before ++ entry :: later).length
      front.length = if later = [] then none else some (front ++ (before ++ later)) := by
  induction before generalizing front with
  | nil =>
      have here : (front ++ entry :: later)[front.length]? = some entry := by simp
      have shifted := dropLast_shiftDown front entry later
      rw [List.nil_append, List.length_cons, dropKey, here, Option.map_some, found, if_pos rfl,
        shifted]
      exact if_congr List.length_eq_zero_iff rfl rfl
  | cons first before ih =>
      have here : (front ++ (first :: before ++ entry :: later))[front.length]? = some first := by
        simp
      have other := absent first List.mem_cons_self
      have behind := ih (fun next inside => absent next (List.mem_cons_of_mem _ inside))
        (front ++ [first])
      have length : (front ++ [first]).length = front.length + 1 := by simp
      rw [length, List.append_assoc, List.append_assoc] at behind
      rw [List.cons_append, List.length_cons, dropKey, ← List.cons_append, here, Option.map_some,
        if_neg (by simpa using other)]
      exact behind

omit [DecidableEq Key] in
private theorem iterate_dropLast (front rest : List (Entry Key Elm)) :
    List.dropLast^[rest.length] (front ++ rest) = front := by
  induction rest using List.reverseRecOn with
  | nil => exact List.append_nil front
  | append_singleton rest last ih =>
      rw [List.length_append, List.length_singleton, Function.iterate_succ_apply,
        ← List.append_assoc, List.dropLast_concat, ih]

theorem popFrom_of_absent {rest : List (Entry Key Elm)} (absent : ∀ entry ∈ rest, entry.key ≠ key)
    (front : List (Entry Key Elm)) :
    popFrom key (front ++ rest) rest.length front.length = (front ++ rest, none) := by
  induction rest generalizing front with
  | nil => rfl
  | cons entry rest ih =>
      have here : (front ++ entry :: rest)[front.length]? = some entry := by simp
      have other := absent entry List.mem_cons_self
      have later := ih (fun next inside => absent next (List.mem_cons_of_mem _ inside))
        (front ++ [entry])
      rw [List.append_assoc, List.length_append] at later
      rw [List.length_cons, popFrom, here, Option.map_some, if_neg (by simpa using other)]
      exact later

private theorem popFrom_of_found {before : List (Entry Key Elm)}
    (absent : ∀ entry ∈ before, entry.key ≠ key) {entry : Entry Key Elm} (found : entry.key = key)
    (later front : List (Entry Key Elm)) :
    popFrom key (front ++ (before ++ entry :: later)) (before ++ entry :: later).length
      front.length = (front ++ before, some entry) := by
  induction before generalizing front with
  | nil =>
      have here : (front ++ entry :: later)[front.length]? = some entry := by simp
      have dropped := iterate_dropLast front (entry :: later)
      rw [List.nil_append, List.length_cons, popFrom, here, Option.map_some, found, if_pos rfl,
        ← List.length_cons, dropped, List.append_nil]
  | cons first before ih =>
      have here : (front ++ (first :: before ++ entry :: later))[front.length]? = some first := by
        simp
      have other := absent first List.mem_cons_self
      have behind := ih (fun next inside => absent next (List.mem_cons_of_mem _ inside))
        (front ++ [first])
      have length : (front ++ [first]).length = front.length + 1 := by simp
      rw [length, List.append_assoc, List.append_assoc] at behind
      rw [List.cons_append, List.length_cons, popFrom, ← List.cons_append, here, Option.map_some,
        if_neg (by simpa using other)]
      exact behind

/-! ## One call -/

variable {maxLen : Nat} {data before later : List (Entry Key Elm)} {entry : Entry Key Elm}
  {elm : Elm}

private theorem push_of_absent (absent : ∀ entry ∈ data, entry.key ≠ key) :
    push maxLen data key elm =
      (if data.length = maxLen then data.tail else data) ++ [⟨key, elm⟩] := by
  have rest : ∀ entry ∈ if data.length = maxLen then data.tail else data, entry.key ≠ key := by
    split
    · exact fun entry inside => absent entry (List.mem_of_mem_tail inside)
    · exact absent
  have searched := dropKey_of_absent rest []
  rw [List.nil_append, List.length_nil] at searched
  simp only [push, searched]

/-- The first entry of a full array is gone before its key is looked for. -/
theorem push_of_full_first (late : ∀ entry ∈ later, entry.key ≠ key)
    (full : (entry :: later).length = maxLen) :
    push maxLen (entry :: later) key elm = later ++ [⟨key, elm⟩] := by
  have searched := dropKey_of_absent late []
  rw [List.nil_append, List.length_nil] at searched
  rw [push, if_pos full]
  simp only [List.tail_cons, searched]

section Found

variable (early : ∀ entry ∈ before, entry.key ≠ key) (found : entry.key = key)
  (late : ∀ entry ∈ later, entry.key ≠ key)
include early found

private theorem push_of_room (room : (before ++ entry :: later).length ≠ maxLen) :
    push maxLen (before ++ entry :: later) key elm =
      if later = [] then before ++ entry :: later else before ++ later ++ [⟨key, elm⟩] := by
  have searched := dropKey_of_found early found later []
  rw [List.nil_append, List.length_nil, List.nil_append] at searched
  rw [push, if_neg room]
  simp only [searched]
  by_cases last : later = []
  · rw [if_pos last, if_pos last]
  · rw [if_neg last, if_neg last]

/-- Another entry of a full array loses the first one. -/
theorem length_push_of_full (first : Entry Key Elm)
    (full : (first :: before ++ entry :: later).length = maxLen) :
    (push maxLen (first :: before ++ entry :: later) key elm).length =
      before.length + later.length + 1 := by
  have searched := dropKey_of_found early found later []
  rw [List.nil_append, List.length_nil, List.nil_append] at searched
  rw [push, if_pos full]
  simp only [List.cons_append, List.tail_cons, searched]
  by_cases last : later = []
  · rw [if_pos last, last]
    simp
  · rw [if_neg last]
    simp [Nat.add_assoc]

include late

private theorem kept_of_found (maxLen : Nat) :
    kept maxLen (before ++ entry :: later) key = before ++ later := by
  have there : key ∈ (before ++ entry :: later).map Entry.key := by simp [found]
  rw [kept, if_pos there, List.filter_append, List.filter_cons_of_neg (by simp [found]),
    List.filter_eq_self.mpr (by simpa using early), List.filter_eq_self.mpr (by simpa using late)]

private theorem push_eq_iff_of_found : push maxLen (before ++ entry :: later) key elm =
      kept maxLen (before ++ entry :: later) key ++ [⟨key, elm⟩] ↔
    if (before ++ entry :: later).length = maxLen then
      (before ++ entry :: later).head? = some entry
    else (before ++ entry :: later).getLast? = some entry → entry.elm = elm := by
  rw [kept_of_found early found late]
  by_cases full : (before ++ entry :: later).length = maxLen
  · rw [if_pos full]
    cases before with
    | nil => exact iff_of_true (push_of_full_first late full) rfl
    | cons first before =>
        apply iff_of_false
        · intro same
          have length := congrArg List.length same
          rw [length_push_of_full (fun next inside => early next (List.mem_cons_of_mem _ inside))
            found first full] at length
          simp only [List.length_append, List.length_cons, List.length_nil] at length
          omega
        · intro head
          have same : first = entry := Option.some.inj head
          exact early first List.mem_cons_self (same ▸ found)
  · rw [if_neg full, push_of_room early found full]
    by_cases last : later = []
    · subst last
      rw [if_pos rfl, List.append_nil, List.append_cancel_left_eq, List.getLast?_concat]
      obtain ⟨own, stored⟩ := entry
      cases found
      simp
    · rw [if_neg last]
      refine iff_of_true rfl ?_
      intro behind
      obtain ⟨init, final, rfl⟩ := (List.eq_nil_or_concat later).resolve_left last
      rw [List.concat_eq_append, ← List.cons_append, ← List.append_assoc, List.getLast?_concat,
        Option.some.injEq] at behind
      exact absurd found (behind ▸ late final (by simp))

end Found

omit [DecidableEq Key] in
private theorem careful_of_absent (absent : ∀ entry ∈ data, entry.key ≠ key) :
    Careful maxLen data (.push key elm) :=
  fun entry inside same => absurd same (absent entry inside)

/-- A push does what is expected exactly if it is careful. -/
theorem push_eq_iff (distinct : (data.map Entry.key).Nodup) :
    push maxLen data key elm = kept maxLen data key ++ [⟨key, elm⟩] ↔
      Careful maxLen data (.push key elm) := by
  by_cases there : ∃ entry ∈ data, entry.key = key
  · obtain ⟨entry, inside, found⟩ := there
    have only : Careful maxLen data (.push key elm) ↔
        if data.length = maxLen then data.head? = some entry
        else data.getLast? = some entry → entry.elm = elm := by
      constructor
      · exact fun careful => careful entry inside found
      · intro one other member same
        rwa [List.inj_on_of_nodup_map distinct member inside (same.trans found.symm)]
    rw [only]
    obtain ⟨before, later, rfl⟩ := List.append_of_mem inside
    rw [List.map_append, List.map_cons, List.nodup_append, List.nodup_cons] at distinct
    obtain ⟨-, ⟨behind, -⟩, apart⟩ := distinct
    apply push_eq_iff_of_found ?_ found ?_
    · intro other member same
      exact apart _ (List.mem_map_of_mem member) _ List.mem_cons_self (same.trans found.symm)
    · intro other member same
      exact behind ((same.trans found.symm) ▸ List.mem_map_of_mem member)
  · have absent : ∀ entry ∈ data, entry.key ≠ key :=
      fun entry inside same => there ⟨entry, inside, same⟩
    have outside : key ∉ data.map Entry.key := by simpa using absent
    refine iff_of_true ?_ (careful_of_absent absent)
    rw [push_of_absent absent, kept, if_neg outside]

private theorem popElm_eq (data : List (Entry Key Elm)) (key : Key) :
    popElm data key = (data.takeWhile fun entry => decide (entry.key ≠ key),
      data.find? fun entry => decide (entry.key = key)) := by
  cases found : data.find? fun entry => decide (entry.key = key) with
  | none =>
      have absent : ∀ entry ∈ data, entry.key ≠ key := by simpa using found
      have searched := popFrom_of_absent absent []
      rw [List.nil_append, List.length_nil] at searched
      rw [popElm, searched, List.takeWhile_eq_self_iff.mpr (by simpa using absent)]
  | some entry =>
      obtain ⟨here, before, later, rfl, early⟩ := List.find?_eq_some_iff_append.mp found
      have named : entry.key = key := by simpa using here
      have absent : ∀ entry ∈ before, entry.key ≠ key := by simpa using early
      have searched := popFrom_of_found absent named later []
      rw [List.nil_append, List.length_nil, List.nil_append] at searched
      rw [popElm, searched, List.takeWhile_append_of_pos (by simpa using absent),
        List.takeWhile_cons_of_neg (by simpa using named), List.append_nil]

/-! ## Histories -/

variable {state : List (Entry Key Elm) × History Key Elm}

private theorem lastPushes_concat (history : History Key Elm) (request : Request Key Elm)
    (reply : Option (Entry Key Elm)) : lastPushes (history ++ [(request, reply)]) =
      match request with
      | .push key elm =>
          (lastPushes history).filter (fun entry => decide (entry.key ≠ key)) ++ [⟨key, elm⟩]
      | .pop => lastPushes history
      | .popElm _ => lastPushes history := by
  rw [lastPushes, List.foldl_append]
  rfl

/-- What stays at a push has other keys, and there is room for one more. -/
theorem kept_sublist (sound : Sound maxLen state) (positive : 1 ≤ maxLen) (key : Key) :
    (kept maxLen state.1 key).Sublist (state.1.filter fun entry => decide (entry.key ≠ key)) ∧
      (kept maxLen state.1 key).length + 1 ≤ maxLen := by
  have bounded := sound.bounded
  unfold kept
  split
  · rename_i there
    obtain ⟨entry, inside, found⟩ := List.mem_map.mp there
    refine ⟨List.Sublist.refl _, ?_⟩
    have shorter : (state.1.filter fun entry => decide (entry.key ≠ key)).length <
        state.1.length :=
      List.length_filter_lt_length_iff_exists.mpr ⟨entry, inside, by simpa using found⟩
    omega
  · rename_i absent
    have others : (state.1.filter fun entry => decide (entry.key ≠ key)) = state.1 :=
      List.filter_eq_self.mpr (by simpa using absent)
    rw [others]
    split
    · refine ⟨List.tail_sublist _, ?_⟩
      rw [List.length_tail]
      omega
    · exact ⟨List.Sublist.refl _, by omega⟩

/-- What is expected of a call leaves a sound array. -/
theorem Sound.expected (sound : Sound maxLen state) (positive : 1 ≤ maxLen)
    (request : Request Key Elm) (reply : Option (Entry Key Elm)) :
    Sound maxLen ((expected maxLen state.1 request).1, state.2 ++ [(request, reply)]) := by
  have shrinks : ∀ {data : List (Entry Key Elm)} {history : History Key Elm},
      data.Sublist state.1 → lastPushes history = lastPushes state.2 →
        Sound maxLen (data, history) := by
    intro data history sub same
    refine ⟨sub.length_le.trans sound.bounded, sound.distinct.sublist (sub.map _), ?_⟩
    exact same ▸ sub.trans sound.ordered
  cases request with
  | push key elm =>
      obtain ⟨others, room⟩ := kept_sublist sound positive key
      refine ⟨?_, ?_, ?_⟩
      · simpa [BoundArray.expected] using room
      · have apart : key ∉ (kept maxLen state.1 key).map Entry.key := by
          intro inside
          obtain ⟨entry, member, same⟩ := List.mem_map.mp inside
          have other := (List.mem_filter.mp (others.subset member)).2
          exact absurd same (of_decide_eq_true other)
        have before : ((kept maxLen state.1 key).map Entry.key).Nodup :=
          sound.distinct.sublist ((others.trans List.filter_sublist).map _)
        have keys : ((BoundArray.expected maxLen state.1 (.push key elm)).1.map Entry.key) =
            (kept maxLen state.1 key).map Entry.key ++ [key] := List.map_append
        rw [keys]
        rw [List.nodup_append]
        refine ⟨before, List.nodup_singleton _, ?_⟩
        intro name inside other here same
        rw [List.mem_singleton.mp here] at same
        exact apart (same ▸ inside)
      · rw [lastPushes_concat]
        exact (others.trans (sound.ordered.filter _)).append (List.Sublist.refl _)
  | pop => exact shrinks (List.dropLast_sublist _) (lastPushes_concat _ _ _)
  | popElm key => exact shrinks (List.takeWhile_sublist _) (lastPushes_concat _ _ _)

private theorem right_iff_request (sound : Sound maxLen state) (positive : 1 ≤ maxLen)
    (request : Request Key Elm) :
    Right maxLen state request ((service maxLen).recorded.serve state request).1
        ((service maxLen).recorded.serve state request).2 ↔ Careful maxLen state.1 request := by
  have next := fun reply => sound.expected positive request reply
  cases request with
  | push key elm =>
      have step : push maxLen state.1 key elm = kept maxLen state.1 key ++ [⟨key, elm⟩] ↔
          Careful maxLen state.1 (.push key elm) := push_eq_iff sound.distinct
      rw [← step]
      constructor
      · exact fun right => congrArg Prod.fst right.done
      · intro same
        refine ⟨congrArg (fun data => (data, none)) same, ?_⟩
        have sound := next none
        rw [BoundArray.expected, ← same] at sound
        exact sound
  | pop => exact iff_of_true ⟨rfl, next _⟩ trivial
  | popElm key =>
      have step := popElm_eq state.1 key
      refine iff_of_true ⟨step, ?_⟩ trivial
      have sound := next (popElm state.1 key).2
      rw [BoundArray.expected, ← step] at sound
      exact sound

/-- **Every call of a history is right exactly if every push is careful.** -/
theorem right_iff_careful_along (maxLen : Nat) (positive : 1 ≤ maxLen)
    (requests : List (Request Key Elm)) :
    (service maxLen).recorded.Along (Right maxLen) ([], []) requests ↔
      (service maxLen).recorded.Meets (fun state request => Careful maxLen state.1 request)
        ([], []) requests := by
  have begins : Sound maxLen (([], []) : List (Entry Key Elm) × History Key Elm) :=
    ⟨Nat.zero_le _, List.nodup_nil, List.Sublist.refl _⟩
  refine Service.along_iff_meets
    (fun state request (sound : Sound maxLen state) => right_iff_request sound positive request)
    ?_ begins
  intro state request sound careful
  exact ((right_iff_request sound positive request).mpr careful).sound

theorem right_iff_careful_along_five : (service 2).recorded.Along (Right 2) ([], [])
    [.push 7 "a", .push 8 "b", .push 7 "c", .popElm 7, .push 9 "d"] :=
  (right_iff_careful_along 2 (by decide) _).mpr (by decide)

/-- The last key is pushed again, with another element. -/
theorem pushedAgain_not_right : ¬ (service 2).recorded.Along (Right 2) ([], [])
    [.push 7 "a", .push 7 "b"] := by
  rintro ⟨-, again, -⟩
  have same := congrArg Prod.fst again.done
  exact absurd same (by decide)

end Tvntd.BoundArray
