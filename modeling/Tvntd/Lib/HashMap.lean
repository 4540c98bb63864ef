import Mathlib.Data.List.AList
import Mathlib.Tactic.Common

/-! # Maps with keys of one type

The values of a map come in an order that nothing is said about. Items that are
put under keys that differ are all found under them.
-/

abbrev HashMap (κ ν : Type) := AList fun _ : κ => ν

namespace HashMap

variable {κ ν : Type}

def values (map : HashMap κ ν) : List ν := map.entries.map Sigma.snd

variable [DecidableEq κ]

theorem mem_values_iff {map : HashMap κ ν} {value : ν} :
    value ∈ map.values ↔ ∃ key, map.lookup key = some value := by
  rw [values, List.mem_map]
  constructor
  · rintro ⟨⟨key, here⟩, inside, rfl⟩
    exact ⟨key, AList.mem_lookup_iff.mpr inside⟩
  · rintro ⟨key, found⟩
    exact ⟨⟨key, value⟩, AList.mem_lookup_iff.mp found, rfl⟩

/-- A value that tells its key is there once. -/
theorem nodup_values {map : HashMap κ ν} {key : ν → κ}
    (keyed : ∀ name value, map.lookup name = some value → key value = name) :
    map.values.Nodup := by
  have names : map.values.map key = map.keys := by
    rw [values, AList.keys, List.keys, List.map_map]
    apply List.map_congr_left
    intro entry inside
    exact keyed entry.1 entry.2 (AList.mem_lookup_iff.mpr inside)
  exact List.Nodup.of_map key (names ▸ map.keys_nodup)

/-- All items under their keys. -/
def puts (key : ν → κ) (map : HashMap κ ν) (items : List ν) : HashMap κ ν :=
  items.foldl (fun map item => AList.insert (key item) item map) map

private theorem lookup_puts_of_not_mem {key : ν → κ} {items : List ν} {name : κ}
    (other : ∀ item ∈ items, key item ≠ name) (map : HashMap κ ν) :
    (puts key map items).lookup name = map.lookup name := by
  induction items generalizing map with
  | nil => rfl
  | cons item rest ih =>
      have next : (puts key map (item :: rest)) =
          puts key (AList.insert (key item) item map) rest := rfl
      rw [next, ih (fun later inside => other later (List.mem_cons_of_mem _ inside)),
        AList.lookup_insert_ne (Ne.symm (other item List.mem_cons_self))]

theorem lookup_puts_of_mem {key : ν → κ} {items : List ν} (distinct : (items.map key).Nodup)
    {item : ν} (inside : item ∈ items) (map : HashMap κ ν) :
    (puts key map items).lookup (key item) = some item := by
  induction items generalizing map with
  | nil => exact absurd inside List.not_mem_nil
  | cons first rest ih =>
      have next : (puts key map (first :: rest)) =
          puts key (AList.insert (key first) first map) rest := rfl
      rw [List.map_cons, List.nodup_cons] at distinct
      rw [next]
      rcases List.mem_cons.mp inside with rfl | later
      · rw [lookup_puts_of_not_mem, AList.lookup_insert]
        intro other after same
        exact distinct.1 (same ▸ List.mem_map_of_mem after)
      · exact ih distinct.2 later _

theorem lookup_puts_iff {key : ν → κ} {items : List ν} (distinct : (items.map key).Nodup)
    {name : κ} {item : ν} :
    (puts key ∅ items).lookup name = some item ↔ item ∈ items ∧ key item = name := by
  constructor
  · intro found
    by_cases listed : ∃ other ∈ items, key other = name
    · obtain ⟨other, inside, rfl⟩ := listed
      rw [lookup_puts_of_mem distinct inside] at found
      cases found
      exact ⟨inside, rfl⟩
    · rw [lookup_puts_of_not_mem (fun other inside same => listed ⟨other, inside, same⟩),
        AList.lookup_empty] at found
      cases found
  · rintro ⟨inside, rfl⟩
    exact lookup_puts_of_mem distinct inside ∅

/-- Where the keys differ, the item with a key is the one that is found by it. -/
theorem find?_iff {key : ν → κ} {items : List ν} (distinct : (items.map key).Nodup) {name : κ}
    {item : ν} : items.find? (fun other => decide (key other = name)) = some item ↔
      item ∈ items ∧ key item = name := by
  constructor
  · intro found
    exact ⟨List.mem_of_find?_eq_some found, by simpa using List.find?_some found⟩
  · rintro ⟨inside, rfl⟩
    cases found : items.find? fun other => decide (key other = key item) with
    | none => exact absurd (decide_eq_true rfl) (List.find?_eq_none.mp found item inside)
    | some other =>
        have same : key other = key item := by simpa using List.find?_some found
        rw [List.inj_on_of_nodup_map distinct (List.mem_of_find?_eq_some found) inside same]

end HashMap
