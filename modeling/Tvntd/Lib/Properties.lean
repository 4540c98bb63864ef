import Tvntd.Lib.Repository

/-! # Properties of an object

An object of a scripting language, as a table whose rows are its properties in the
order in which they were first set.
-/

universe u v

instance {Key : Type u} {Value : Type v} : Entity (Key × Value) Key := ⟨Prod.fst⟩

abbrev Properties (Key : Type u) (Value : Type v) := Repository (Key × Value)

namespace Properties

/-- The properties that an object has without being given them, from `Object.prototype`. -/
def inheritedNames : List String :=
  ["constructor", "__proto__", "__defineGetter__", "__defineSetter__", "__lookupGetter__",
    "__lookupSetter__", "hasOwnProperty", "isPrototypeOf", "propertyIsEnumerable", "toString",
    "toLocaleString", "valueOf"]

/-- `{}[name]` is not undefined. -/
def Inherited (name : String) : Prop := name ∈ inheritedNames

instance (name : String) : Decidable (Inherited name) :=
  inferInstanceAs (Decidable (name ∈ inheritedNames))

variable {Key : Type u} {Value : Type v} [DecidableEq Key]

/-- `object[key]`, for a key that is not `Inherited`. -/
def get (object : Properties Key Value) (key : Key) : Option Value :=
  (Repository.find object key).map Prod.snd

/-- `object[key] = value` -/
def set (object : Properties Key Value) (key : Key) (value : Value) : Properties Key Value :=
  Repository.save object (key, value)

/-- `delete object[key]` -/
def delete (object : Properties Key Value) (key : Key) : Properties Key Value :=
  Repository.delete object key

omit [DecidableEq Key] in
def values (object : Properties Key Value) : List Value := object.rows.map Prod.snd

/-- An object of these values, each under its key; later ones replace earlier ones. -/
def collect (name : Value → Key) (list : List Value) : Properties Key Value :=
  list.foldl (fun object value => set object (name value) value) Repository.empty

variable {object : Properties Key Value} {key other : Key} {value : Value}

private theorem get_eq_some : get object key = some value ↔ (key, value) ∈ object.rows := by
  rw [get, Option.map_eq_some_iff]
  constructor
  · rintro ⟨row, found, rfl⟩
    obtain ⟨inside, rfl⟩ := Repository.find_eq_some.mp found
    exact inside
  · exact fun inside => ⟨_, Repository.find_eq_some.mpr ⟨inside, rfl⟩, rfl⟩

theorem get_empty (key : Key) : get (Repository.empty : Properties Key Value) key = none := rfl

theorem get_set (object : Properties Key Value) (key : Key) (value : Value) (other : Key) :
    get (set object key value) other = if other = key then some value else get object other := by
  rw [get, set, Repository.find_save]
  change Option.map Prod.snd (if other = key then some (key, value) else _) = _
  split
  · rfl
  · rfl

theorem get_set_self (object : Properties Key Value) (key : Key) (value : Value) :
    get (set object key value) key = some value := by rw [get_set, if_pos rfl]

theorem get_set_of_ne (apart : other ≠ key) :
    get (set object key value) other = get object other := by rw [get_set, if_neg apart]

theorem get_delete (object : Properties Key Value) (key other : Key) :
    get (delete object key) other = if other = key then none else get object other := by
  rw [get, delete, Repository.find_delete]
  by_cases same : other = key
  · rw [if_pos same, if_pos same]
    rfl
  · rw [if_neg same, if_neg same]
    rfl

theorem delete_eq_self (absent : get object key = none) : delete object key = object :=
  Repository.delete_eq_self (Option.map_eq_none_iff.mp absent)

theorem set_eq_self (found : get object key = some value) : set object key value = object := by
  obtain ⟨row, there, rfl⟩ := Option.map_eq_some_iff.mp found
  obtain rfl := Repository.key_of_find there
  exact Repository.save_eq_self there

theorem mem_values : value ∈ values object ↔ ∃ key, get object key = some value := by
  rw [values, List.mem_map]
  constructor
  · rintro ⟨⟨key, value⟩, inside, rfl⟩
    exact ⟨key, get_eq_some.mpr inside⟩
  · rintro ⟨key, found⟩
    exact ⟨(key, value), get_eq_some.mp found, rfl⟩

theorem mem_values_of_get (found : get object key = some value) : value ∈ values object :=
  mem_values.mpr ⟨key, found⟩

/-- Values that tell their keys are there once. -/
theorem nodup_values (name : Value → Key)
    (named : ∀ key value, get object key = some value → name value = key) :
    (values object).Nodup := by
  refine List.Nodup.map_on ?_ (List.Nodup.of_map _ object.distinct)
  rintro ⟨first, value⟩ left ⟨second, value⟩ right rfl
  rw [← named first value (get_eq_some.mpr left), ← named second value (get_eq_some.mpr right)]

theorem mem_values_set_of_fresh (fresh : get object key = none) {new : Value} :
    value ∈ values (set object key new) ↔ value = new ∨ value ∈ values object := by
  rw [mem_values, mem_values]
  constructor
  · rintro ⟨other, found⟩
    by_cases same : other = key
    · rw [same, get_set_self, Option.some.injEq] at found
      exact .inl found.symm
    · rw [get_set_of_ne same] at found
      exact .inr ⟨other, found⟩
  · rintro (rfl | ⟨other, found⟩)
    · exact ⟨key, get_set_self _ _ _⟩
    · have apart : other ≠ key := by
        rintro rfl
        cases fresh.symm.trans found
      exact ⟨other, (get_set_of_ne apart).trans found⟩

/-- Where values tell their keys, one value goes. -/
theorem mem_values_delete (name : Value → Key)
    (named : ∀ key value, get object key = some value → name value = key)
    (found : get object key = some value) {rest : Value} :
    rest ∈ values (delete object key) ↔ rest ∈ values object ∧ rest ≠ value := by
  rw [mem_values, mem_values]
  constructor
  · rintro ⟨other, there⟩
    rw [get_delete] at there
    split at there
    case isTrue => cases there
    case isFalse apart =>
      refine ⟨⟨other, there⟩, ?_⟩
      rintro rfl
      exact apart ((named other rest there).symm.trans (named key rest found))
  · rintro ⟨⟨other, there⟩, apart⟩
    refine ⟨other, ?_⟩
    rw [get_delete, if_neg, there]
    rintro rfl
    exact apart (Option.some.inj (there.symm.trans found))

/-! ## Objects of values -/

theorem get_collect (name : Value → Key) (list : List Value) (key : Key) :
    get (collect name list) key =
      (list.filter fun value => decide (name value = key)).getLast? := by
  have rows : collect name list =
      (list.map fun value => (name value, value)).foldl Repository.save Repository.empty := by
    rw [List.foldl_map]
    rfl
  have filtered : (list.map fun value => (name value, value)).filter
      (fun row => decide (Entity.key row = key)) =
        (list.filter fun value => decide (name value = key)).map fun value => (name value, value) :=
    List.filter_map
  rw [get, rows, Repository.find_foldl_save, filtered, List.getLast?_map]
  cases (list.filter fun value => decide (name value = key)).getLast? with
  | none => rfl
  | some last => rfl

/-- **All values.** An object has all values of a list exactly if no two have one key. -/
theorem mem_collect_iff (name : Value → Key) (list : List Value) :
    (∀ value, value ∈ values (collect name list) ↔ value ∈ list) ↔
      ∀ value ∈ list, ∀ other ∈ list, name value = name other → value = other := by
  constructor
  · intro all value inside other there same
    obtain ⟨key, found⟩ := mem_values.mp ((all value).mpr inside)
    obtain ⟨place, listed⟩ := mem_values.mp ((all other).mpr there)
    rw [get_collect] at found listed
    have first := List.of_mem_filter (List.mem_of_getLast? found)
    have second := List.of_mem_filter (List.mem_of_getLast? listed)
    rw [decide_eq_true_eq] at first second
    rw [← first, same, second, listed, Option.some.injEq] at found
    exact found.symm
  · intro distinct value
    rw [mem_values]
    constructor
    · rintro ⟨key, found⟩
      rw [get_collect] at found
      exact (List.mem_filter.mp (List.mem_of_getLast? found)).1
    · intro inside
      refine ⟨name value, ?_⟩
      have here : value ∈ list.filter fun other => decide (name other = name value) :=
        List.mem_filter.mpr ⟨inside, decide_eq_true rfl⟩
      rw [get_collect]
      cases last : (list.filter fun other => decide (name other = name value)).getLast? with
      | none => rw [List.getLast?_eq_none_iff.mp last] at here; cases here
      | some other =>
          obtain ⟨there, same⟩ := List.mem_filter.mp (List.mem_of_getLast? last)
          rw [distinct other there value inside (of_decide_eq_true same)]

end Properties
