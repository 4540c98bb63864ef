import Tvntd.Java.MenuItemService
import Tvntd.Lib.Forest
import Tvntd.Lib.HashMap

/-! # Menus linked in place

`getMenuItemRespByUser` makes an item for each row, sorts the items into roots and
others, and then puts every other one below the item that its parent id names. An
item whose parent is not there, or that is below itself, is linked to none of the
roots.
-/

namespace Tvntd.MenuItemService

open Forest (Place IsForest Linked Reaches)

/-- `userId * itemIdMul` as a `long`. -/
def baseOf (userId : Int) : Int := (userId * itemIdMul).bmod (2 ^ 64)

/-- What the first loop fills. An item stands for the object made of it. -/
structure Sorted where
  map : HashMap Int MenuItem
  result : List MenuItem
  sub : List MenuItem

/-- A turn of the first loop. -/
def sortItem (base : Int) (sorted : Sorted) (raw : MenuItem) : Except Exception Sorted :=
  match raw.parentId with
  | none => .error .nullPointer
  | some parentId =>
      let map := AList.insert raw.itemId raw sorted.map
      if parentId = base then .ok { sorted with map := map, result := sorted.result ++ [raw] }
      else .ok { sorted with map := map, sub := sorted.sub ++ [raw] }

def parentOf (map : HashMap Int MenuItem) (item : MenuItem) : Option MenuItem :=
  item.parentId.bind map.lookup

/-- The lists `items` behind the second loop. -/
def linkSub (sorted : Sorted) : MenuItem → List MenuItem :=
  sorted.sub.foldl (fun items item => Forest.attach items (parentOf sorted.map item) item)
    fun _ => []

/-- `getMenuItemRespByUser` on the rows of the user: the roots, and the items below each. -/
def linkItems (rawList : List MenuItem) (userId : Int) :
    Except Exception (List MenuItem × (MenuItem → List MenuItem)) :=
  (rawList.foldlM (sortItem (baseOf userId)) ⟨∅, [], []⟩).map fun sorted =>
    (sorted.result, linkSub sorted)

/-- An item is a root if its parent is the user's, and else under the item its parent names. -/
def place (rawList : List MenuItem) (base : Int) (item : MenuItem) : Place MenuItem :=
  if item ∈ rawList then
    if item.parentId = some base then .root
    else
      match item.parentId.bind fun parentId =>
          rawList.find? fun other => decide (other.itemId = parentId) with
      | some parent => .under parent
      | none => .nowhere
  else .nowhere

/-! ## The first loop -/

variable {rawList : List MenuItem} {base userId : Int}

private theorem sortItem_eq {item : MenuItem} (parented : item.parentId ≠ none) (sorted : Sorted) :
    sortItem base sorted item = .ok
      { map := AList.insert item.itemId item sorted.map
        result := sorted.result ++ [item].filter fun item => decide (item.parentId = some base)
        sub := sorted.sub ++ [item].filter fun item => decide (item.parentId ≠ some base) } := by
  obtain ⟨parentId, here⟩ := Option.ne_none_iff_exists'.mp parented
  simp only [sortItem, here]
  by_cases top : parentId = base
  · simp [here, top]
  · simp [here, top]

/-- The rows have parents, and are sorted by them. -/
theorem sortItems_eq (base : Int) (parented : ∀ item ∈ rawList, item.parentId ≠ none)
    (sorted : Sorted) :
    rawList.foldlM (sortItem base) sorted = .ok
      { map := HashMap.puts MenuItem.itemId sorted.map rawList
        result := sorted.result ++ rawList.filter fun item => decide (item.parentId = some base)
        sub := sorted.sub ++ rawList.filter fun item => decide (item.parentId ≠ some base) } := by
  induction rawList generalizing sorted with
  | nil => simp [HashMap.puts, pure, Except.pure]
  | cons item rest ih =>
      have later := ih fun other inside => parented other (List.mem_cons_of_mem _ inside)
      rw [List.foldlM_cons, sortItem_eq (parented item List.mem_cons_self)]
      refine (later _).trans ?_
      rw [List.append_assoc, List.append_assoc, ← List.filter_append, ← List.filter_append]
      rfl

/-! ## The forest -/

/-- What both loops leave, where every row has a parent. -/
theorem linkItems_eq (userId : Int) (parented : ∀ item ∈ rawList, item.parentId ≠ none) :
    ∃ items, linkItems rawList userId = .ok
        (rawList.filter fun item => decide (item.parentId = some (baseOf userId)), items) ∧
      ∀ parent, items parent = rawList.filter fun item =>
        decide (parentOf (HashMap.puts MenuItem.itemId ∅ rawList) item = some parent) &&
          decide (item.parentId ≠ some (baseOf userId)) := by
  have sorted := sortItems_eq (baseOf userId) parented ⟨∅, [], []⟩
  refine ⟨linkSub ⟨HashMap.puts MenuItem.itemId ∅ rawList, [], rawList.filter fun item =>
    decide (item.parentId ≠ some (baseOf userId))⟩, ?_, ?_⟩
  · rw [linkItems, sorted]
    rfl
  · intro parent
    rw [linkSub, Forest.foldl_attach, List.nil_append, List.filter_filter]

section Distinct

variable (distinct : (rawList.map MenuItem.itemId).Nodup)
include distinct

private theorem parentOf_iff {item parent : MenuItem} :
    parentOf (HashMap.puts MenuItem.itemId ∅ rawList) item = some parent ↔
      parent ∈ rawList ∧ item.parentId = some parent.itemId := by
  rw [parentOf, Option.bind_eq_some_iff]
  constructor
  · rintro ⟨parentId, here, found⟩
    obtain ⟨inside, rfl⟩ := (HashMap.lookup_puts_iff distinct).mp found
    exact ⟨inside, here⟩
  · rintro ⟨inside, here⟩
    exact ⟨parent.itemId, here, HashMap.lookup_puts_of_mem distinct inside ∅⟩

private theorem find_parent_iff {item parent : MenuItem} :
    (item.parentId.bind fun parentId =>
        rawList.find? fun other => decide (other.itemId = parentId)) = some parent ↔
      parent ∈ rawList ∧ item.parentId = some parent.itemId := by
  rw [Option.bind_eq_some_iff]
  constructor
  · rintro ⟨parentId, here, found⟩
    obtain ⟨inside, rfl⟩ := (HashMap.find?_iff distinct).mp found
    exact ⟨inside, here⟩
  · rintro ⟨inside, here⟩
    exact ⟨parent.itemId, here, (HashMap.find?_iff distinct).mpr ⟨inside, rfl⟩⟩

theorem place_eq_under_iff {item parent : MenuItem} : place rawList base item = .under parent ↔
    item ∈ rawList ∧ item.parentId ≠ some base ∧ parent ∈ rawList ∧
      item.parentId = some parent.itemId := by
  rw [← find_parent_iff distinct]
  unfold place
  by_cases inside : item ∈ rawList
  · rw [if_pos inside]
    by_cases top : item.parentId = some base
    · simp [top]
    · rw [if_neg top]
      cases found : item.parentId.bind fun parentId =>
          rawList.find? fun other => decide (other.itemId = parentId) with
      | none => simp
      | some other => simp [inside, top]
  · simp [inside]

omit distinct in
theorem place_eq_root_iff {item : MenuItem} :
    place rawList base item = .root ↔ item ∈ rawList ∧ item.parentId = some base := by
  unfold place
  by_cases inside : item ∈ rawList
  · rw [if_pos inside]
    by_cases top : item.parentId = some base
    · simp [inside, top]
    · rw [if_neg top]
      cases item.parentId.bind fun parentId =>
          rawList.find? fun other => decide (other.itemId = parentId) with
      | none => simp [top]
      | some other => simp [top]
  · simp [inside]

end Distinct

open Classical in
/-- The items whose chain of parents reaches the user's. -/
noncomputable def reaching (rawList : List MenuItem) (base : Int) : List MenuItem :=
  rawList.filter fun item => decide (∃ depth, Reaches (place rawList base) depth item)

private theorem mem_reaching {item : MenuItem} : item ∈ reaching rawList base ↔
    item ∈ rawList ∧ ∃ depth, Reaches (place rawList base) depth item := by
  classical
  rw [reaching, List.mem_filter, decide_eq_true_eq]

/-- **The menu of a user is the forest of the items that reach the user's.** -/
theorem linkItems_isForest (rawList : List MenuItem) (userId : Int)
    (distinct : (rawList.map MenuItem.itemId).Nodup)
    (parented : ∀ item ∈ rawList, item.parentId ≠ none) :
    ∃ roots items, linkItems rawList userId = .ok (roots, items) ∧
      IsForest (place rawList (baseOf userId)) (reaching rawList (baseOf userId)) roots items := by
  obtain ⟨items, linked, below⟩ := linkItems_eq userId parented
  have rows : rawList.Nodup := List.Nodup.of_map _ distinct
  refine ⟨_, items, linked, Forest.Linked.isForest ⟨rows.filter _, ?_, ?_, ?_⟩ (rows.filter _) ?_⟩
  · intro item
    rw [List.mem_filter, decide_eq_true_eq]
    exact place_eq_root_iff.symm
  · intro parent depth _
    rw [below]
    exact rows.filter _
  · intro parent depth _ item
    rw [below, List.mem_filter, Bool.and_eq_true, decide_eq_true_eq, decide_eq_true_eq,
      parentOf_iff distinct, place_eq_under_iff distinct]
    constructor
    · rintro ⟨inside, ⟨member, link⟩, other⟩
      exact ⟨inside, other, member, link⟩
    · rintro ⟨inside, other, member, link⟩
      exact ⟨inside, ⟨member, link⟩, other⟩
  · intro item
    have listed : (∃ depth, Reaches (place rawList (baseOf userId)) depth item) →
        item ∈ rawList := by
      rintro ⟨depth, reaches⟩
      cases reaches with
      | root top => exact (place_eq_root_iff.mp top).1
      | under link => exact ((place_eq_under_iff distinct).mp link).1
    rw [mem_reaching]
    exact ⟨And.right, fun there => ⟨listed there, there⟩⟩

section Menu

/-- A row with all but its ids empty. -/
def row (itemId parentId : Int) : MenuItem :=
  ⟨itemId, some 7, some parentId, none, none, none, none, none⟩

/-- An item behind the one below it, an orphan, and two items below each other. -/
theorem linkItems_isForest_five : ∃ roots items,
    linkItems [row 2 1, row 1 7000, row 3 9, row 4 5, row 5 4] 7 = .ok (roots, items) ∧
      IsForest (place [row 2 1, row 1 7000, row 3 9, row 4 5, row 5 4] (baseOf 7))
        (reaching [row 2 1, row 1 7000, row 3 9, row 4 5, row 5 4] (baseOf 7)) roots items :=
  linkItems_isForest _ 7 (by decide) (by decide)

end Menu

end Tvntd.MenuItemService
