import Mathlib.Data.List.Basic
import Tvntd.Lib.Loop

/-! # Iterating over decoders

`JsDecodeIter` of `json/json-obj.h` goes through the decoders of a level and, as
its comment says, all the way to the upstream levels. `iter_next` steps to the
next level at the null pointer that ends an array, and returns that null pointer:
a loop that runs until a null pointer ends there.
-/

namespace Tvntd

variable {ε : Type*}

/-- A decoder and those upstream of it, by their arrays `js_decode` without the null pointer at
the end; `none` is a null pointer in place of the array. -/
abbrev JsDecodeChain (ε : Type*) := List (Option (List ε))

/-- `JsDecodeIter`; no level is left where `js_ref` is null. -/
structure JsDecodeIter (ε : Type*) where
  jsRef : JsDecodeChain ε
  jsIdx : Nat

namespace JsDecodeIter

/-- `iter_begin` -/
def iterBegin (chain : JsDecodeChain ε) : JsDecodeIter ε := ⟨chain, 0⟩

/-- The first loop of `iter_next`. -/
def skipNull : JsDecodeChain ε → JsDecodeChain ε
  | none :: upstream => skipNull upstream
  | levels => levels

/-- An element of an array that a null pointer ends; `none` is behind that one. -/
def arrayAt (array : List ε) (idx : Nat) : Option (Option ε) := (array.map some ++ [none])[idx]?

/-- `iter_next`: what it returns and the iterator. -/
def iterNext (iter : JsDecodeIter ε) : Option (Option ε × JsDecodeIter ε) :=
  match skipNull iter.jsRef with
  | some array :: upstream =>
      match arrayAt array iter.jsIdx with
      | none => none
      | some none => some (none, ⟨upstream, 0⟩)
      | some (some ret) => some (some ret, ⟨some array :: upstream, iter.jsIdx + 1⟩)
  | levels => some (none, ⟨levels, iter.jsIdx⟩)

/-- A loop over the iterator until it signals the end, and what it was given. -/
def iterAll : Loop (JsDecodeIter ε × List ε) (List ε) where
  turn state :=
    state.1.iterNext.map fun
      | (some ret, iter) => .inl (iter, state.2 ++ [ret])
      | (none, _) => .inr state.2

/-- The arrays of the levels that have one, one behind the other. -/
def allDecoders (chain : JsDecodeChain ε) : List ε := (chain.filterMap id).flatten

/-- The levels above the first one that has an array contribute nothing. -/
def UpstreamEmpty (chain : JsDecodeChain ε) : Prop :=
  ∀ array ∈ (chain.filterMap id).tail, array = []

/-- The loop over what is left of one level. -/
theorem iterAll_level (array : List ε) (upstream : JsDecodeChain ε) (rest : List ε) :
    ∀ done seen, array = done ++ rest →
      iterAll.Returns (⟨some array :: upstream, done.length⟩, seen) (seen ++ rest) := by
  induction rest with
  | nil =>
      intro done seen split
      apply Loop.returns_of_done
      rw [List.append_nil] at split
      have ended : arrayAt array done.length = some none := by
        simp [arrayAt, split]
      simp [iterAll, iterNext, skipNull, ended]
  | cons ret rest ih =>
      intro done seen split
      have here : arrayAt array done.length = some (some ret) := by
        simp [arrayAt, split]
      have later := ih (done ++ [ret]) (seen ++ [ret]) (by simp [split])
      rw [List.length_append, List.length_singleton, List.append_assoc,
        List.singleton_append] at later
      refine later.of_turn ?_
      simp [iterAll, iterNext, skipNull, here]

/-- The loop gives the array of the first level that has one, and ends. -/
theorem iterAll_first (chain : JsDecodeChain ε) :
    iterAll.Returns (iterBegin chain, []) ((chain.filterMap id).head?.getD []) := by
  induction chain with
  | nil => exact Loop.returns_of_done rfl
  | cons level upstream ih =>
      cases level with
      | none => exact ih.of_turn_eq rfl
      | some array => exact iterAll_level array upstream array [] [] rfl

/-- **Iterating over decoders.** The loop gives the decoders of all levels exactly where those
above the first level with an array have none. -/
theorem iterAll_returns_all_iff (chain : JsDecodeChain ε) :
    iterAll.Returns (iterBegin chain, []) (allDecoders chain) ↔ UpstreamEmpty chain := by
  have first := iterAll_first chain
  have same : iterAll.Returns (iterBegin chain, []) (allDecoders chain) ↔
      allDecoders chain = (chain.filterMap id).head?.getD [] :=
    ⟨fun returns => returns.unique first, fun same => same ▸ first⟩
  rw [same, allDecoders, UpstreamEmpty]
  cases chain.filterMap id with
  | nil => simp
  | cons array upstream =>
      rw [List.flatten_cons, List.head?_cons, Option.getD_some, List.append_right_eq_self,
        List.flatten_eq_nil_iff, List.tail_cons]

/-- An empty array in front of one with a decoder. -/
theorem iterAll_stops_early :
    ¬ iterAll.Returns (iterBegin [some [], some [1]], []) (allDecoders [some [], some [1]]) := by
  intro returns
  have empty := returns.unique (iterAll_first [some [], some [1]])
  exact absurd empty (by decide)

end JsDecodeIter

end Tvntd
