import Tvntd.Java.Text
import Tvntd.Lib.Repository

/-! # Menus of users

A menu is a forest of items. It is saved item by item, each with the id of its
parent, and put together again from the rows of its user.
-/

namespace Tvntd.MenuItemService

structure MenuItemBadge where
  label : Option String
  clazz : Option String
deriving DecidableEq

/-- An item with the items below it. -/
inductive MenuItemResp where
  | mk (itemId : Int) (parentId : Option Int) (title icon route : Option String)
      (badge : Option MenuItemBadge) (items : List MenuItemResp)

structure MenuItem where
  itemId : Int
  userId : Option Int
  parentId : Option Int
  title : Option String
  icon : Option String
  route : Option String
  badgeLabel : Option String
  badgeClass : Option String
deriving DecidableEq

instance : Entity MenuItem Int := ⟨MenuItem.itemId⟩

namespace MenuItemResp

def itemId : MenuItemResp → Int
  | .mk itemId _ _ _ _ _ _ => itemId

def parentId : MenuItemResp → Option Int
  | .mk _ parentId _ _ _ _ _ => parentId

def title : MenuItemResp → Option String
  | .mk _ _ title _ _ _ _ => title

def icon : MenuItemResp → Option String
  | .mk _ _ _ icon _ _ _ => icon

def route : MenuItemResp → Option String
  | .mk _ _ _ _ route _ _ => route

def badge : MenuItemResp → Option MenuItemBadge
  | .mk _ _ _ _ _ badge _ => badge

def items : MenuItemResp → List MenuItemResp
  | .mk _ _ _ _ _ _ items => items

/-- The item of a row, with nothing below it yet. -/
def ofItem (item : MenuItem) : MenuItemResp :=
  .mk item.itemId item.parentId item.title item.icon item.route
    (item.badgeClass.map fun clazz => ⟨item.badgeLabel, some clazz⟩) []

end MenuItemResp

/-- The row of an item. -/
def MenuItem.ofResp (itemId : Int) (parentId : Option Int) (title icon route : Option String)
    (badge : Option MenuItemBadge) : MenuItem where
  itemId := itemId
  userId := none
  parentId := parentId
  title := title
  icon := icon
  route := route
  badgeLabel := badge.bind MenuItemBadge.label
  badgeClass := badge.bind MenuItemBadge.clazz

def customizedId : Int := 3

def itemIdMul : Int := 1000

/-! ## Saving -/

mutual

/-- Saves an item under an id of the level, and the items below it under ids from the first one of
the user on. -/
def saveItem (userId id : Int) (parent : Option Int) (menuItemRepo : Repository MenuItem) :
    MenuItemResp → Repository MenuItem
  | .mk _ parentId title icon route badge items =>
      let menuItemRepo :=
        menuItemRepo.save (.ofResp id (parent.or parentId) title icon route badge)
      saveItems userId (userId * itemIdMul) (some id) menuItemRepo items

/-- The loop over a level. The parent is what the caller has set in all of its items. -/
def saveItems (userId itemId : Int) (parent : Option Int) (menuItemRepo : Repository MenuItem) :
    List MenuItemResp → Repository MenuItem
  | [] => menuItemRepo
  | it :: rest =>
      if customizedId ≤ userId ∧ customizedId ≤ it.itemId then
        saveItems userId (itemId + 1) parent (saveItem userId itemId parent menuItemRepo it) rest
      else saveItems userId itemId parent (saveItem userId it.itemId parent menuItemRepo it) rest

end

def saveMenuItem (menuItemRepo : Repository MenuItem) (userId : Int) (items : List MenuItemResp) :
    Repository MenuItem :=
  saveItems userId (userId * itemIdMul) none menuItemRepo items

/-! ## Reading -/

/-- An item with all that is below it. An item has one parent and the roots have none, so that no
branch is longer than the list of items. -/
def addSubMenu (sub : List MenuItemResp) : Nat → MenuItemResp → MenuItemResp
  | 0, item => item
  | depth + 1, .mk itemId parentId title icon route badge _ =>
      .mk itemId parentId title icon route badge
        ((sub.filter fun below => decide (below.parentId = some itemId)).map (addSubMenu sub depth))

def getMenuItemRespByUser (menuItemRepo : Repository MenuItem) (userId : Int) :
    Except Exception (List MenuItemResp) :=
  let rawList := menuItemRepo.findAll fun item => decide (item.userId = some userId)
  if rawList.any fun item => item.parentId.isNone then .error .nullPointer
  else
    let base := userId * itemIdMul
    let all := rawList.map MenuItemResp.ofItem
    let result := all.filter fun item => decide (item.parentId = some base)
    let sub := all.filter fun item => decide (item.parentId ≠ some base)
    .ok (result.map (addSubMenu sub rawList.length))

/-! ## Menus that look alike -/

/-- Two forests with the same shape, titles, icons, routes and badges, siblings in any order. -/
inductive Alike : List MenuItemResp → List MenuItemResp → Prop where
  | nil : Alike [] []
  | cons {first second : MenuItemResp} {rest others : List MenuItemResp}
      (title : first.title = second.title) (icon : first.icon = second.icon)
      (route : first.route = second.route) (badge : first.badge = second.badge)
      (below : Alike first.items second.items) (later : Alike rest others) :
      Alike (first :: rest) (second :: others)
  | swap (first second : MenuItemResp) (rest : List MenuItemResp) :
      Alike (first :: second :: rest) (second :: first :: rest)
  | trans {first second third : List MenuItemResp} (left : Alike first second)
      (right : Alike second third) : Alike first third

theorem Alike.length_eq {forest other : List MenuItemResp} (alike : Alike forest other) :
    forest.length = other.length := by
  induction alike with
  | nil => rfl
  | cons _ _ _ _ _ _ _ later => exact congrArg Nat.succ later
  | swap => rfl
  | trans _ _ left right => exact left.trans right

/-! ## Rows of no user -/

variable {userId : Int}

/-- No item of the repository is of the user. -/
def NoneOf (userId : Int) (menuItemRepo : Repository MenuItem) : Prop :=
  ∀ item ∈ menuItemRepo.rows, item.userId ≠ some userId

instance (userId : Int) (menuItemRepo : Repository MenuItem) :
    Decidable (NoneOf userId menuItemRepo) :=
  inferInstanceAs (Decidable (∀ item ∈ menuItemRepo.rows, item.userId ≠ some userId))

theorem NoneOf.save {menuItemRepo : Repository MenuItem} (noneOf : NoneOf userId menuItemRepo)
    {item : MenuItem} (unowned : item.userId = none) : NoneOf userId (menuItemRepo.save item) := by
  intro other inside
  rcases Repository.mem_save.mp inside with rfl | ⟨held, -⟩
  · rw [unowned]
    exact nofun
  · exact noneOf other held

mutual

private theorem noneOf_saveItem {menuItemRepo : Repository MenuItem}
    (noneOf : NoneOf userId menuItemRepo) (owner id : Int) (parent : Option Int) :
    ∀ item, NoneOf userId (saveItem owner id parent menuItemRepo item)
  | .mk _ _ _ _ _ _ items => by
      rw [saveItem]
      exact noneOf_saveItems (noneOf.save rfl) owner _ _ items

private theorem noneOf_saveItems {menuItemRepo : Repository MenuItem}
    (noneOf : NoneOf userId menuItemRepo) (owner id : Int) (parent : Option Int) :
    ∀ items, NoneOf userId (saveItems owner id parent menuItemRepo items)
  | [] => noneOf
  | it :: rest => by
      rw [saveItems]
      split
      · exact noneOf_saveItems (noneOf_saveItem noneOf owner _ _ it) owner _ _ rest
      · exact noneOf_saveItems (noneOf_saveItem noneOf owner _ _ it) owner _ _ rest

end

/-- Nothing is read where no item is of the user. -/
theorem getMenuItemRespByUser_of_noneOf {menuItemRepo : Repository MenuItem}
    (noneOf : NoneOf userId menuItemRepo) :
    getMenuItemRespByUser menuItemRepo userId = .ok [] := by
  have nothing : (menuItemRepo.findAll fun item => decide (item.userId = some userId)) = [] := by
    apply List.filter_eq_nil_iff.mpr
    intro item inside
    simpa using noneOf item inside
  simp [getMenuItemRespByUser, nothing]

/-! ## What a saved menu is held to -/

/-- The menu is read back as it was saved, and the items of other users are what they were. -/
structure Restored (before : Repository MenuItem) (userId : Int) (forest : List MenuItemResp)
    (after : Repository MenuItem) : Prop where
  read : ∃ result, getMenuItemRespByUser after userId = .ok result ∧ Alike forest result
  others : ∀ item : MenuItem, item.userId ≠ some userId → item.userId ≠ none →
    (item ∈ after.rows ↔ item ∈ before.rows)

/-- **A saved menu is read back if and only if it has no items.** -/
theorem restored_iff_empty (menuItemRepo : Repository MenuItem) (userId : Int)
    (forest : List MenuItemResp) (noneOf : NoneOf userId menuItemRepo) :
    Restored menuItemRepo userId forest (saveMenuItem menuItemRepo userId forest) ↔
      forest = [] := by
  have read := getMenuItemRespByUser_of_noneOf
    (noneOf_saveItems noneOf userId (userId * itemIdMul) none forest)
  constructor
  · rintro ⟨⟨result, given, alike⟩, -⟩
    obtain rfl : [] = result := Except.ok.inj (read.symm.trans given)
    exact List.length_eq_zero_iff.mp alike.length_eq
  · rintro rfl
    exact ⟨⟨[], read, Alike.nil⟩, fun _ _ _ => Iff.rfl⟩

def home : MenuItemResp := .mk 3 (some 7000) (some "Home") none none none []

theorem restored_empty :
    Restored (Repository.empty.save ⟨1, some 0, some 0, some "About", none, none, none, none⟩) 7 []
      (saveMenuItem
        (Repository.empty.save ⟨1, some 0, some 0, some "About", none, none, none, none⟩) 7 []) :=
  (restored_iff_empty _ 7 [] (by decide)).mpr rfl

/-- A menu of one item is not read back. -/
theorem home_not_restored :
    ¬ Restored Repository.empty 7 [home] (saveMenuItem Repository.empty 7 [home]) := by
  rintro ⟨⟨result, given, alike⟩, -⟩
  have read : getMenuItemRespByUser (saveMenuItem Repository.empty 7 [home]) 7 = .ok [] := rfl
  obtain rfl : [] = result := Except.ok.inj (read.symm.trans given)
  exact absurd alike.length_eq (by decide)

end Tvntd.MenuItemService
