import Mathlib.Algebra.BigOperators.Group.List.Basic
import Mathlib.Algebra.GroupWithZero.Nat
import Mathlib.Data.List.Flatten
import Mathlib.Data.List.Count
import Mathlib.Data.List.Perm.Basic
import Mathlib.Logic.Function.Basic

/-! # Forests of linked nodes

Nodes are linked in place: every node has a list of the nodes below it, and some
are roots. A node occurs in the forest once for every way down to it from a root.
-/

namespace Forest

variable {Node : Type}

/-- The nodes so many links under the roots. -/
def level (below : Node → List Node) (roots : List Node) : Nat → List Node
  | 0 => roots
  | depth + 1 => (level below roots depth).flatMap below

/-- The nodes less than so many links under the roots. -/
def upper (below : Node → List Node) (roots : List Node) : Nat → List Node
  | 0 => []
  | depth + 1 => upper below roots depth ++ level below roots depth

/-- Where a node belongs. -/
inductive Place (Node : Type) where
  | nowhere
  | root
  | under (parent : Node)
deriving DecidableEq

/-- The chain of parents of a node reaches a root after so many links. -/
inductive Reaches (place : Node → Place Node) : Nat → Node → Prop where
  | root {node : Node} (top : place node = .root) : Reaches place 0 node
  | under {node parent : Node} {depth : Nat} (link : place node = .under parent)
      (up : Reaches place depth parent) : Reaches place (depth + 1) node

/-- The nodes occur once each, and every one where it belongs. -/
structure IsForest (place : Node → Place Node) (nodes roots : List Node)
    (below : Node → List Node) : Prop where
  once : ∃ depth, level below roots depth = [] ∧ (upper below roots depth).Perm nodes
  root : ∀ node ∈ roots, place node = .root
  under : ∀ parent ∈ nodes, ∀ node ∈ below parent, place node = .under parent

section Attach

variable [DecidableEq Node]

/-- A node comes behind the others below its parent. -/
def attach (below : Node → List Node) (parent : Option Node) (node : Node) : Node → List Node :=
  match parent with
  | some parent => Function.update below parent (below parent ++ [node])
  | none => below

/-- Below a parent are the nodes that have it, in their order. -/
theorem foldl_attach (parentOf : Node → Option Node) (nodes : List Node)
    (below : Node → List Node) (parent : Node) :
    nodes.foldl (fun below node => attach below (parentOf node) node) below parent =
      below parent ++ nodes.filter fun node => decide (parentOf node = some parent) := by
  induction nodes generalizing below with
  | nil => exact (List.append_nil _).symm
  | cons node rest ih =>
      rw [List.foldl_cons, ih]
      cases found : parentOf node with
      | none => simp [attach, found]
      | some own =>
          by_cases here : own = parent
          · simp [attach, found, here]
          · simp [attach, found, here, Function.update_of_ne (Ne.symm here)]

end Attach

variable {place : Node → Place Node}

theorem Reaches.unique {node : Node} {depth other : Nat} (first : Reaches place depth node)
    (second : Reaches place other node) : depth = other := by
  induction first generalizing other with
  | root top =>
      cases second with
      | root => rfl
      | under link => exact absurd (top.symm.trans link) nofun
  | under link _ ih =>
      cases second with
      | root top => exact absurd (top.symm.trans link) nofun
      | under another up =>
          cases link.symm.trans another
          exact congrArg Nat.succ (ih up)

variable (place) in
/-- No node of a list is further from a root than some bound. -/
theorem exists_bound (nodes : List Node) :
    ∃ bound, ∀ node ∈ nodes, ∀ depth, Reaches place depth node → depth < bound := by
  classical
  induction nodes with
  | nil => exact ⟨0, nofun⟩
  | cons first rest ih =>
      obtain ⟨bound, later⟩ := ih
      by_cases some : ∃ depth, Reaches place depth first
      · obtain ⟨distance, reaches⟩ := some
        refine ⟨max bound (distance + 1), ?_⟩
        intro node inside depth here
        rcases List.mem_cons.mp inside with rfl | inside
        · rw [here.unique reaches]
          exact Nat.lt_of_lt_of_le (Nat.lt_succ_self _) (Nat.le_max_right _ _)
        · exact Nat.lt_of_lt_of_le (later node inside depth here) (Nat.le_max_left _ _)
      · refine ⟨bound, ?_⟩
        intro node inside depth here
        rcases List.mem_cons.mp inside with rfl | inside
        · exact absurd ⟨depth, here⟩ some
        · exact later node inside depth here

private theorem reaches_succ_iff {node : Node} {depth : Nat} : Reaches place (depth + 1) node ↔
    ∃ parent, place node = .under parent ∧ Reaches place depth parent := by
  constructor
  · rintro ⟨⟩
    rename_i parent up link
    exact ⟨parent, link, up⟩
  · rintro ⟨parent, link, up⟩
    exact .under link up

/-- Every node is linked where it belongs, and once. -/
structure Linked (place : Node → Place Node) (roots : List Node) (below : Node → List Node) :
    Prop where
  nodup_roots : roots.Nodup
  mem_roots : ∀ node, node ∈ roots ↔ place node = .root
  nodup_below : ∀ parent depth, Reaches place depth parent → (below parent).Nodup
  mem_below : ∀ parent depth, Reaches place depth parent →
    ∀ node, node ∈ below parent ↔ place node = .under parent

section Count

variable [DecidableEq Node]

variable {roots : List Node} {below : Node → List Node}

private theorem sum_under (nodes : List Node) (parent : Node) :
    (nodes.map fun other => if Place.under parent = .under other then 1 else 0).sum =
      nodes.count parent := by
  induction nodes with
  | nil => rfl
  | cons first rest ih =>
      rw [List.map_cons, List.sum_cons, ih, List.count_cons, Nat.add_comm]
      simp only [Place.under.injEq, beq_iff_eq, eq_comm (a := first)]

open Classical in
/-- The nodes of a level are those that are so far from a root. -/
theorem Linked.count_level (linked : Linked place roots below) (depth : Nat) (node : Node) :
    (level below roots depth).count node = if Reaches place depth node then 1 else 0 := by
  induction depth generalizing node with
  | zero =>
      rw [level, linked.nodup_roots.count]
      apply if_congr ?_ rfl rfl
      rw [linked.mem_roots]
      constructor
      · exact Reaches.root
      · intro reaches
        cases reaches with
        | root top => exact top
  | succ depth ih =>
      have inside : ∀ parent ∈ level below roots depth, Reaches place depth parent := by
        intro parent member
        by_contra off
        have counted := List.count_pos_iff.mpr member
        rw [ih, if_neg off] at counted
        exact Nat.lt_irrefl 0 counted
      have counts : ((level below roots depth).map fun parent => (below parent).count node) =
          (level below roots depth).map fun parent =>
            if place node = .under parent then 1 else 0 := by
        apply List.map_congr_left
        intro parent member
        have reaches := inside parent member
        rw [(linked.nodup_below parent depth reaches).count]
        exact if_congr (linked.mem_below parent depth reaches node) rfl rfl
      have total : (level below roots (depth + 1)).count node =
          ((level below roots depth).map fun parent => (below parent).count node).sum :=
        List.count_flatMap
      rw [total, counts, reaches_succ_iff]
      cases here : place node with
      | nowhere => simp
      | root => simp
      | under parent =>
          rw [sum_under, ih]
          simp only [Place.under.injEq, exists_eq_left']

open Classical in
private theorem Linked.count_upper (linked : Linked place roots below) (depth : Nat) (node : Node) :
    (upper below roots depth).count node =
      if ∃ distance < depth, Reaches place distance node then 1 else 0 := by
  induction depth with
  | zero => simp [upper]
  | succ depth ih =>
      rw [upper, List.count_append, ih, linked.count_level]
      by_cases here : Reaches place depth node
      · have early : ¬ ∃ distance < depth, Reaches place distance node := by
          rintro ⟨distance, lower, reaches⟩
          exact absurd (reaches.unique here) (Nat.ne_of_lt lower)
        rw [if_neg early, if_pos here, if_pos ⟨depth, Nat.lt_succ_self depth, here⟩]
      · rw [if_neg here, Nat.add_zero]
        apply if_congr ?_ rfl rfl
        constructor
        · rintro ⟨distance, lower, reaches⟩
          exact ⟨distance, Nat.lt_succ_of_lt lower, reaches⟩
        · rintro ⟨distance, lower, reaches⟩
          refine ⟨distance, Nat.lt_of_le_of_ne (Nat.le_of_lt_succ lower) ?_, reaches⟩
          rintro rfl
          exact here reaches

/-- **Links make a forest** of the nodes whose chains reach a root. -/
theorem Linked.isForest (linked : Linked place roots below) {nodes : List Node}
    (distinct : nodes.Nodup) (reached : ∀ node, node ∈ nodes ↔ ∃ depth, Reaches place depth node) :
    IsForest place nodes roots below where
  once := by
    classical
    obtain ⟨bound, within⟩ := exists_bound place nodes
    refine ⟨bound, ?_, ?_⟩
    · rw [List.eq_nil_iff_forall_not_mem]
      intro node inside
      have counted := List.count_pos_iff.mpr inside
      rw [linked.count_level] at counted
      split at counted
      · rename_i reaches
        exact Nat.lt_irrefl _ (within node ((reached node).mpr ⟨bound, reaches⟩) bound reaches)
      · exact Nat.lt_irrefl 0 counted
    · rw [List.perm_iff_count]
      intro node
      rw [linked.count_upper, distinct.count]
      apply if_congr ?_ rfl rfl
      rw [reached]
      constructor
      · rintro ⟨depth, -, reaches⟩
        exact ⟨depth, reaches⟩
      · rintro ⟨depth, reaches⟩
        exact ⟨depth, within node ((reached node).mpr ⟨depth, reaches⟩) depth reaches, reaches⟩
  root := fun node inside => (linked.mem_roots node).mp inside
  under := by
    intro parent here node inside
    obtain ⟨depth, reaches⟩ := (reached parent).mp here
    exact (linked.mem_below parent depth reaches node).mp inside

end Count

end Forest
