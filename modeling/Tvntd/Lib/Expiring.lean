import Mathlib.Data.Option.Basic
import Mathlib.Logic.Function.Basic
import Mathlib.Tactic.Common

/-! # Maps whose entries expire

An entry lives for a fixed time from when it was written. Looking up a key that has no live entry
may write one with a value to begin with; who reads `valueAt` does not see whether that was done.
-/

universe u v

structure Expiring (Key : Type u) (Value : Type v) where
  entry : Key → Option (Value × Int)

namespace Expiring

open Function

variable {Key : Type u} {Value : Type v} (life : Int) (init : Value)

def empty : Expiring Key Value := ⟨fun _ => none⟩

def live (map : Expiring Key Value) (now : Int) (key : Key) : Option Value :=
  match map.entry key with
  | none => none
  | some (value, written) => if now - written < life then some value else none

def valueAt (map : Expiring Key Value) (now : Int) (key : Key) : Value :=
  (map.live life now key).getD init

section Lookup

variable {life init} {map : Expiring Key Value} {now later : Int} {key other : Key}

@[simp] theorem valueAt_empty :
    (empty : Expiring Key Value).valueAt life init now key = init := rfl

/-- What has expired stays so. -/
theorem live_of_le (dead : map.live life now key = none) (later_ : now ≤ later) :
    map.live life later key = none := by
  unfold live at dead ⊢
  split
  · rfl
  · rename_i value written there
    rw [there] at dead
    dsimp only at dead
    split at dead
    · cases dead
    · exact if_neg (by omega)

end Lookup

variable [DecidableEq Key]

def put (map : Expiring Key Value) (now : Int) (key : Key) (value : Value) :
    Expiring Key Value :=
  ⟨update map.entry key (some (value, now))⟩

def invalidate (map : Expiring Key Value) (key : Key) : Expiring Key Value :=
  ⟨update map.entry key none⟩

/-- The live value of a key, written first if there is none. -/
def get (map : Expiring Key Value) (now : Int) (key : Key) : Value × Expiring Key Value :=
  match map.live life now key with
  | some value => (value, map)
  | none => (init, map.put now key init)

variable {life init} {map : Expiring Key Value} {now later : Int} {key other : Key}

theorem valueAt_put_self (value : Value) :
    (map.put now key value).valueAt life init later key =
      if later - now < life then value else init := by
  unfold valueAt live put
  dsimp only
  rw [update_self]
  dsimp only
  split
  · rfl
  · rfl

theorem valueAt_put_of_ne (value : Value) (apart : other ≠ key) :
    (map.put now key value).valueAt life init later other =
      map.valueAt life init later other := by
  unfold valueAt live put
  dsimp only
  rw [update_of_ne apart]

theorem valueAt_invalidate_self :
    (map.invalidate key).valueAt life init later key = init := by
  unfold valueAt live invalidate
  dsimp only
  rw [update_self]
  rfl

theorem valueAt_invalidate_of_ne (apart : other ≠ key) :
    (map.invalidate key).valueAt life init later other = map.valueAt life init later other := by
  unfold valueAt live invalidate
  dsimp only
  rw [update_of_ne apart]

theorem get_fst : (map.get life init now key).1 = map.valueAt life init now key := by
  unfold get valueAt
  split
  · rename_i value there
    rw [there]
    rfl
  · rename_i dead
    rw [dead]
    rfl

/-- A lookup changes no value, from then on. -/
theorem valueAt_get (later_ : now ≤ later) :
    (map.get life init now key).2.valueAt life init later other =
      map.valueAt life init later other := by
  unfold get
  split
  · rfl
  · rename_i dead
    by_cases here : other = key
    · subst here
      rw [valueAt_put_self, valueAt, live_of_le dead later_]
      split
      · rfl
      · rfl
    · exact valueAt_put_of_ne init here

end Expiring
