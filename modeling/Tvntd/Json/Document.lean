import Mathlib.Data.List.Flatten
import Mathlib.Data.List.Perm.Basic
import Mathlib.Logic.Relation
import Tvntd.Json.Value

/-! # JSON documents

A document is a tree of objects and arrays. The order of the members of an object is not part of
what a document says: two documents are the same when members of objects, anywhere in them, are
put into another order.
-/

namespace Tvntd.Json

/-- A property holds of every value, when it goes from the parts of an array or object to it. -/
theorem tree_induction {motive : Json → Prop}
    (array : ∀ elms, (∀ elm ∈ elms, motive elm) → motive (.array elms))
    (object : ∀ members, (∀ m ∈ members, motive m.2) → motive (.object members))
    (leaf : ∀ val : Json, val.isArray = Bool.false → val.isObject = Bool.false → motive val) :
    ∀ val, motive val
  | .array elms => array elms fun elm _ => tree_induction array object leaf elm
  | .object members => object members fun m _ => tree_induction array object leaf m.2
  | .string value => leaf (.string value) rfl rfl
  | .integer value => leaf (.integer value) rfl rfl
  | .real image => leaf (.real image) rfl rfl
  | .true => leaf .true rfl rfl
  | .false => leaf .false rfl rfl
  | .null => leaf .null rfl rfl
  termination_by val => sizeOf val
  decreasing_by
  · rename_i inside
    have smaller := List.sizeOf_lt_of_mem inside
    simp only [Json.array.sizeOf_spec]
    omega
  · rename_i inside
    have smaller := List.sizeOf_lt_of_mem inside
    have part : sizeOf m.2 < sizeOf m := by
      cases m
      simp only [Prod.mk.sizeOf_spec]
      omega
    simp only [Json.object.sizeOf_spec]
    omega

/-! ## Collecting -/

section Collect

variable {α : Type} (member : Member → List α) (text : CStr → List α)

mutual

/-- What the members and the strings of a document give, in the order of the document. -/
def collect : Json → List α
  | .array elms => collectElements elms
  | .object members => collectMembers members
  | .string value => text value
  | _ => []

def collectElements : List Json → List α
  | [] => []
  | elm :: rest => collect elm ++ collectElements rest

def collectMembers : List Member → List α
  | [] => []
  | (key, val) :: rest => (member (key, val) ++ collect val) ++ collectMembers rest

end

theorem collect_array (elms : List Json) :
    collect member text (.array elms) = elms.flatMap (collect member text) := by
  rw [collect]
  induction elms with
  | nil => rfl
  | cons elm rest ih => rw [collectElements, ih, List.flatMap_cons]

theorem collect_object (members : List Member) :
    collect member text (.object members) =
      members.flatMap fun m => member m ++ collect member text m.2 := by
  rw [collect]
  induction members with
  | nil => rfl
  | cons m rest ih => rw [collectMembers, ih, List.flatMap_cons]

end Collect

/-- The string values of a document. -/
def strings : Json → List CStr := collect (fun _ => []) fun value => [value]

theorem strings_array (elms : List Json) : strings (.array elms) = elms.flatMap strings :=
  collect_array _ _ elms

theorem strings_object (members : List Member) :
    strings (.object members) = members.flatMap fun m => strings m.2 :=
  collect_object _ _ members

/-! ## Orders of the members -/

/-- One object of the document gets its members in another order. -/
inductive Reorder : Json → Json → Prop where
  | members {members members' : List Member} (order : members.Perm members') :
      Reorder (.object members) (.object members')
  | member (before : List Member) (key : CStr) {val val' : Json} (behind : List Member)
      (inner : Reorder val val') :
      Reorder (.object (before ++ (key, val) :: behind)) (.object (before ++ (key, val') :: behind))
  | element (before : List Json) {elm elm' : Json} (behind : List Json)
      (inner : Reorder elm elm') :
      Reorder (.array (before ++ elm :: behind)) (.array (before ++ elm' :: behind))

/-- The same document, up to the order of members. -/
def Reordered : Json → Json → Prop := Relation.ReflTransGen Reorder

variable {val val' : Json}

theorem Reorder.isString (reorder : Reorder val val') (value : CStr) : val ≠ .string value := by
  intro same
  subst same
  cases reorder

theorem Reorder.isString' (reorder : Reorder val val') (value : CStr) : val' ≠ .string value := by
  intro same
  subst same
  cases reorder

section Order

variable {α : Type} {member : Member → List α} {text : CStr → List α} {Fits : α → Prop}

/-- What is collected is in another order, when no member with parts to reorder gives anything
that depends on their order. -/
theorem Reorder.collect (reorder : Reorder val val')
    (fits : ∀ x ∈ collect member text val, Fits x)
    (steady : ∀ key old new, Reorder old new → (∀ x ∈ member (key, old), Fits x) →
      member (key, old) = member (key, new)) :
    (collect member text val).Perm (collect member text val') := by
  induction reorder with
  | members order =>
      rw [collect_object, collect_object]
      exact order.flatMap_right _
  | member before key behind inner ih =>
      simp only [collect_object, List.flatMap_append, List.flatMap_cons, List.mem_append] at fits ⊢
      rw [steady key _ _ inner fun x own => fits x (Or.inr (Or.inl (Or.inl own)))]
      have below := ih fun x deep => fits x (Or.inr (Or.inl (Or.inr deep)))
      exact ((below.append_left _).append_right _).append_left _
  | element before behind inner ih =>
      simp only [collect_array, List.flatMap_append, List.flatMap_cons, List.mem_append] at fits ⊢
      have below := ih fun x deep => fits x (Or.inr (Or.inl deep))
      exact (below.append_right _).append_left _

theorem Reordered.collect (reordered : Reordered val val')
    (fits : ∀ x ∈ collect member text val, Fits x)
    (steady : ∀ key old new, Reorder old new → (∀ x ∈ member (key, old), Fits x) →
      member (key, old) = member (key, new)) :
    (collect member text val).Perm (collect member text val') := by
  induction reordered with
  | refl => exact List.Perm.refl _
  | tail _ reorder ih =>
      have between := fun x inside => fits x (ih.mem_iff.mpr inside)
      exact ih.trans (reorder.collect between steady)

end Order

theorem Reordered.strings (reordered : Reordered val val') :
    val.strings.Perm val'.strings := by
  have all : ∀ x ∈ val.strings, (fun _ => True) x := fun _ _ => trivial
  exact reordered.collect all fun _ _ _ _ _ => rfl

end Tvntd.Json
