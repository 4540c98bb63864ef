import Mathlib.Data.List.Nodup
import Mathlib.Data.Option.Basic
import Mathlib.Tactic.Common

/-! # Tables keyed by an identifier

Every row carries its key, and no two rows of a table have the same one. A save
replaces the row of its key, or adds a row; a deletion by a condition removes
every row that meets it.
-/

universe u v

/-- Rows that carry their own key. -/
class Entity (Row : Type u) (Key : outParam (Type v)) where
  key : Row → Key

@[ext] structure Repository (Row : Type u) {Key : Type v} [Entity Row Key] where
  rows : List Row
  distinct : (rows.map Entity.key).Nodup

namespace Repository

variable {Row : Type u} {Key : Type v} [Entity Row Key]

open Entity (key)

def empty : Repository Row := ⟨[], List.nodup_nil⟩

/-- The rows that meet a condition. -/
def findAll (repo : Repository Row) (condition : Row → Bool) : List Row :=
  repo.rows.filter condition

/-- Removes the rows that meet a condition. -/
def deleteAll (repo : Repository Row) (condition : Row → Bool) : Repository Row where
  rows := repo.rows.filter fun row => !condition row
  distinct := repo.distinct.sublist (List.filter_sublist.map _)

theorem eq_of_mem_of_key {repo : Repository Row} {first second : Row}
    (left : first ∈ repo.rows) (right : second ∈ repo.rows) (same : key first = key second) :
    first = second :=
  List.inj_on_of_nodup_map repo.distinct left right same

variable {repo : Repository Row}

@[simp] theorem mem_deleteAll {condition : Row → Bool} {row : Row} :
    row ∈ (repo.deleteAll condition).rows ↔ row ∈ repo.rows ∧ condition row = false := by
  simp [deleteAll]

@[simp] theorem mem_findAll {condition : Row → Bool} {row : Row} :
    row ∈ repo.findAll condition ↔ row ∈ repo.rows ∧ condition row = true := by
  simp [findAll]

/-- A deletion that no row meets. -/
theorem deleteAll_eq_self {condition : Row → Bool}
    (none : ∀ row ∈ repo.rows, condition row = false) :
    repo.deleteAll condition = repo := by
  apply Repository.ext
  apply List.filter_eq_self.mpr
  intro row inside
  simp [none row inside]

variable [DecidableEq Key]

def find (repo : Repository Row) (id : Key) : Option Row :=
  repo.rows.find? fun row => decide (key row = id)

def delete (repo : Repository Row) (id : Key) : Repository Row :=
  repo.deleteAll fun row => decide (key row = id)

/-- A row under its key: in the place of the old one, or behind all others. -/
def put (row : Row) : List Row → List Row
  | [] => [row]
  | old :: rest => if key old = key row then row :: rest else old :: put row rest

private theorem mem_put {row other : Row} {rows : List Row} (distinct : (rows.map key).Nodup) :
    other ∈ put row rows ↔ other = row ∨ other ∈ rows ∧ key other ≠ key row := by
  induction rows with
  | nil => simp [put]
  | cons old rest ih =>
      obtain ⟨fresh, later⟩ := List.nodup_cons.mp distinct
      by_cases same : key old = key row
      · have apart : other ∈ rest → key other ≠ key row := by
          intro inside held
          exact fresh (same.trans held.symm ▸ List.mem_map_of_mem inside)
        rw [put, if_pos same, List.mem_cons, List.mem_cons]
        grind
      · rw [put, if_neg same, List.mem_cons, List.mem_cons, ih later]
        grind

private theorem distinct_put (row : Row) {rows : List Row} (distinct : (rows.map key).Nodup) :
    ((put row rows).map key).Nodup := by
  induction rows with
  | nil => simp [put]
  | cons old rest ih =>
      obtain ⟨fresh, later⟩ := List.nodup_cons.mp distinct
      by_cases same : key old = key row
      · rw [put, if_pos same, List.map_cons, List.nodup_cons, ← same]
        exact ⟨fresh, later⟩
      · rw [put, if_neg same, List.map_cons, List.nodup_cons]
        refine ⟨?_, ih later⟩
        intro inside
        obtain ⟨other, held, shared⟩ := List.mem_map.mp inside
        rcases (mem_put later).mp held with rfl | ⟨rest, -⟩
        · exact same shared.symm
        · exact fresh (shared ▸ List.mem_map_of_mem rest)

def save (repo : Repository Row) (row : Row) : Repository Row :=
  ⟨put row repo.rows, distinct_put row repo.distinct⟩

private theorem put_of_mem {row : Row} {rows : List Row} (distinct : (rows.map key).Nodup)
    (inside : row ∈ rows) : put row rows = rows := by
  induction rows with
  | nil => cases inside
  | cons old rest ih =>
      obtain ⟨fresh, later⟩ := List.nodup_cons.mp distinct
      rcases List.mem_cons.mp inside with rfl | inside
      · rw [put, if_pos rfl]
      · have apart : key old ≠ key row := fun same => fresh (same ▸ List.mem_map_of_mem inside)
        rw [put, if_neg apart, ih later inside]

/-! ## What is found -/

theorem find_eq_some {id : Key} {row : Row} :
    repo.find id = some row ↔ row ∈ repo.rows ∧ key row = id := by
  constructor
  · intro found
    have same := List.find?_some found
    exact ⟨List.mem_of_find?_eq_some found, by simpa using same⟩
  · rintro ⟨inside, rfl⟩
    cases found : repo.find (key row) with
    | none =>
        have apart := List.find?_eq_none.mp found row inside
        simp at apart
    | some other =>
        have same := List.find?_some found
        rw [eq_of_mem_of_key (List.mem_of_find?_eq_some found) inside (by simpa using same)]

theorem find_eq_none {id : Key} : repo.find id = none ↔ ∀ row ∈ repo.rows, key row ≠ id := by
  simp [find]

theorem key_of_find {id : Key} {row : Row} (found : repo.find id = some row) : key row = id :=
  (find_eq_some.mp found).2

theorem mem_of_find {id : Key} {row : Row} (found : repo.find id = some row) : row ∈ repo.rows :=
  (find_eq_some.mp found).1

theorem find_of_mem {row : Row} (inside : row ∈ repo.rows) : repo.find (key row) = some row :=
  find_eq_some.mpr ⟨inside, rfl⟩

theorem find_iff_mem {row : Row} : repo.find (key row) = some row ↔ row ∈ repo.rows :=
  ⟨mem_of_find, find_of_mem⟩

theorem mem_save {row other : Row} :
    other ∈ (repo.save row).rows ↔ other = row ∨ other ∈ repo.rows ∧ key other ≠ key row :=
  mem_put repo.distinct

/-- A saved row takes the place of the row with its key. -/
theorem find_save (repo : Repository Row) (row : Row) (id : Key) :
    (repo.save row).find id = if id = key row then some row else repo.find id := by
  apply Option.ext
  intro other
  rw [find_eq_some, mem_save]
  by_cases here : id = key row
  · subst here
    simp only [if_true, Option.some.injEq]
    grind
  · rw [if_neg here, find_eq_some]
    grind

@[simp] theorem find_save_self (repo : Repository Row) (row : Row) :
    (repo.save row).find (key row) = some row := by
  rw [find_save, if_pos rfl]

theorem find_save_of_ne {row : Row} {id : Key} (apart : id ≠ key row) :
    (repo.save row).find id = repo.find id := by
  rw [find_save, if_neg apart]

/-- A row saved in the place of another adds no key. -/
theorem exists_of_find_save {id place : Key} {row later other : Row}
    (found : (repo.save later).find id = some other) (there : repo.find place = some row)
    (same : key later = place) : ∃ before, repo.find id = some before := by
  rw [find_save] at found
  split at found
  case isTrue here => exact ⟨row, here.trans same ▸ there⟩
  case isFalse => exact ⟨other, found⟩

private theorem find_deleteAll (repo : Repository Row) (condition : Row → Bool) (id : Key) :
    (repo.deleteAll condition).find id = (repo.find id).filter fun row => !condition row := by
  apply Option.ext
  intro other
  rw [find_eq_some, mem_deleteAll, Option.filter_eq_some_iff, find_eq_some]
  simp only [Bool.not_eq_true']
  grind

theorem find_delete (repo : Repository Row) (gone id : Key) :
    (repo.delete gone).find id = if id = gone then none else repo.find id := by
  rw [delete, find_deleteAll]
  cases found : repo.find id with
  | none => simp
  | some row =>
      have same := key_of_find found
      by_cases here : id = gone
      · simp [Option.filter, here, same]
      · simp [Option.filter, here, same]

@[simp] theorem find_delete_self (repo : Repository Row) (id : Key) :
    (repo.delete id).find id = none := by
  rw [find_delete, if_pos rfl]

theorem find_delete_of_ne {gone id : Key} (apart : id ≠ gone) :
    (repo.delete gone).find id = repo.find id := by
  rw [find_delete, if_neg apart]

theorem delete_eq_self {id : Key} (absent : repo.find id = none) : repo.delete id = repo := by
  apply deleteAll_eq_self
  intro row inside
  exact decide_eq_false (find_eq_none.mp absent row inside)

/-- A row that is there already. -/
theorem save_eq_self {id : Key} {row : Row} (found : repo.find id = some row) :
    repo.save row = repo :=
  Repository.ext (put_of_mem repo.distinct (mem_of_find found))

/-- A loop every turn of which removes what is looked up or leaves it. -/
theorem foldl_erases {State Item Found : Type*} (look : State → Option Found)
    {turn : State → Item → State} {hits : Item → Prop} [DecidablePred hits]
    (once : ∀ state item, look (turn state item) = if hits item then none else look state)
    (items : List Item) (state : State) :
    look (items.foldl turn state) = if ∃ item ∈ items, hits item then none else look state := by
  induction items generalizing state with
  | nil => simp
  | cons item rest ih =>
      rw [List.foldl_cons, ih, once]
      by_cases later : ∃ other ∈ rest, hits other
      · obtain ⟨other, inside, hit⟩ := later
        rw [if_pos ⟨other, inside, hit⟩, if_pos ⟨other, List.mem_cons_of_mem _ inside, hit⟩]
      · rw [if_neg later]
        by_cases here : hits item
        · rw [if_pos here, if_pos ⟨item, List.mem_cons_self, here⟩]
        · rw [if_neg here, if_neg]
          rintro ⟨other, inside, hit⟩
          rcases List.mem_cons.mp inside with rfl | inside
          · exact here hit
          · exact later ⟨other, inside, hit⟩

/-- Rows saved one after the other: the last one of a key stays. -/
theorem find_foldl_save (rows : List Row) (id : Key) : ∀ repo : Repository Row,
    (rows.foldl save repo).find id =
      (rows.filter fun row => decide (key row = id)).getLast?.or (repo.find id) := by
  induction rows with
  | nil => exact fun _ => rfl
  | cons row rest ih =>
      intro repo
      rw [List.foldl_cons, ih, find_save, List.filter_cons]
      by_cases here : key row = id
      · rw [if_pos here.symm, if_pos (decide_eq_true here), List.getLast?_cons]
        cases (rest.filter fun row => decide (key row = id)).getLast? with
        | none => rfl
        | some later => rfl
      · rw [if_neg (Ne.symm here), if_neg (by simpa using here)]

end Repository
