import Mathlib.Data.Finset.Card
import Mathlib.Logic.Relation

/-! # Relations without cycles

A relation has no cycle if nothing is behind itself. New edges into one element
make none where that element does not lead to where they start, and where edges
end at finitely many elements only, every element has a height above those that
it leads to.
-/

universe u

namespace Edges

open Relation

variable {α : Type u} {edge other : α → α → Prop} {x y : α}

/-- No way along the edges leads back to where it starts. -/
def Acyclic (edge : α → α → Prop) : Prop := ∀ x, ¬ TransGen edge x x

namespace Acyclic

theorem mono (acyclic : Acyclic edge) (fewer : ∀ x y, other x y → edge x y) : Acyclic other :=
  fun x cycle => acyclic x (TransGen.mono fewer _ _ cycle)

theorem irrefl (acyclic : Acyclic edge) (x : α) : ¬ edge x x :=
  fun loop => acyclic x (.single loop)

/-- Where all new edges lead to one element, what it leads to has not become more. -/
theorem reached_of_enters {goal : α} (edges : ∀ x y, other x y → edge x y ∨ y = goal)
    (reached : ReflTransGen other goal y) : ReflTransGen edge goal y := by
  induction reached with
  | refl => exact .refl
  | @tail y z _ step ih =>
      rcases edges y z step with old | rfl
      · exact ih.tail old
      · exact .refl

/-- A way with a new edge can be cut at it. -/
theorem cut_at_new {goal : α} {fresh : α → Prop}
    (edges : ∀ x y, other x y → edge x y ∨ y = goal ∧ fresh x) (way : TransGen other x y) :
    TransGen edge x y ∨
      ∃ z, ReflTransGen other x z ∧ fresh z ∧ ReflTransGen other goal y := by
  induction way with
  | @single y step =>
      rcases edges x y step with old | ⟨rfl, new⟩
      · exact .inl (.single old)
      · exact .inr ⟨x, .refl, new, .refl⟩
  | @tail y z way step ih =>
      rcases edges y z step with old | ⟨rfl, new⟩
      · rcases ih with ih | ⟨cut, reached, new, rest⟩
        · exact .inl (ih.tail old)
        · exact .inr ⟨cut, reached, new, rest.tail step⟩
      · exact .inr ⟨y, way.to_reflTransGen, new, .refl⟩

/-- **New edges.** They may all lead to one element, if it does not lead to where they start. -/
theorem enter (acyclic : Acyclic edge) (goal : α)
    (edges : ∀ x y, other x y → edge x y ∨ y = goal ∧ ¬ ReflTransGen edge goal x) :
    Acyclic other := by
  intro x cycle
  rcases cut_at_new edges cycle with old | ⟨cut, reached, new, rest⟩
  · exact acyclic x old
  · refine new (reached_of_enters (fun x y step => ?_) (rest.trans reached))
    exact (edges x y step).imp_right And.left

/-- **Heights.** Where all edges end in a finite set, every edge leads further down. -/
theorem exists_height (acyclic : Acyclic edge) (ends : Finset α)
    (closed : ∀ x y, edge x y → y ∈ ends) :
    ∃ height : α → Nat, (∀ x, height x ≤ ends.card) ∧ ∀ x y, edge x y → height y < height x := by
  classical
  refine ⟨fun x => (ends.filter (TransGen edge x)).card,
    fun x => Finset.card_le_card (Finset.filter_subset _ _), ?_⟩
  intro x y step
  refine Finset.card_lt_card ((Finset.ssubset_iff_of_subset ?_).mpr ⟨y, ?_, ?_⟩)
  · intro z reached
    rw [Finset.mem_filter] at reached ⊢
    exact ⟨reached.1, .head step reached.2⟩
  · exact Finset.mem_filter.mpr ⟨closed x y step, .single step⟩
  · exact fun reached => acyclic y (Finset.mem_filter.mp reached).2

end Acyclic

end Edges
