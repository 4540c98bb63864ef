import Mathlib.Data.List.Chain
import Mathlib.Data.List.Nodup
import Mathlib.Logic.Function.Basic

/-! # Rings of cells with two links

Every cell has a link to the next cell and one to the previous cell. Two cells
are joined when each leads to the other, and a ring is a head and its cells, each
joined to the next one and the last one to the head. What changes a ring changes
two links at a time: it joins one cell to another. Two rules say what becomes of
a ring then: `Links.Ring.splice` puts a run of joined cells between two neighbours,
`Links.Ring.cut` leaves one out.
-/

universe u

namespace TwoWay

open Function

/-- The links of all cells; `none` is a link that was never set. -/
@[ext]
structure Links (Cell : Type u) where
  next : Cell → Option Cell
  prev : Cell → Option Cell

namespace Links

variable {Cell : Type u}

/-- Each of the two cells leads to the other. -/
def Joined (links : Links Cell) (a b : Cell) : Prop :=
  links.next a = some b ∧ links.prev b = some a

/-- The head and the cells are all different, and each is joined to the one behind it. -/
structure Ring (links : Links Cell) (head : Cell) (cells : List Cell) : Prop where
  chain : (head :: (cells ++ [head])).IsChain links.Joined
  nodup : (head :: cells).Nodup

/-- From this cell each of the two links leads to a cell whose other link leads back. -/
def Inverse (links : Links Cell) (cell : Cell) : Prop :=
  (links.next cell).bind links.prev = some cell ∧ (links.prev cell).bind links.next = some cell

variable {links : Links Cell} {head cell a b : Cell} {cells front inner back : List Cell}

/-- The last of some cells, or the head where there are none. -/
theorem getLast?_getD_mem (head : Cell) (cells : List Cell) :
    cells.getLast?.getD head ∈ head :: cells := by
  cases ended : cells.getLast? with
  | none => exact List.mem_cons_self
  | some cell => exact List.mem_cons_of_mem _ (List.mem_of_getLast? ended)

theorem head?_getD_mem (head : Cell) (cells : List Cell) :
    cells.head?.getD head ∈ head :: cells := by
  cases cells with
  | nil => exact List.mem_cons_self
  | cons cell rest => simp

/-- A cell of a ring is not its head and none of its other cells. -/
theorem Ring.notMem (ring : links.Ring head (front ++ cell :: back)) :
    cell ∉ head :: (front ++ back) := by
  have moved : (head :: front ++ cell :: back).Perm (cell :: (head :: front ++ back)) :=
    List.perm_middle
  exact (List.nodup_cons.mp (moved.nodup_iff.mp ring.nodup)).1

theorem Ring.head_notMem (ring : links.Ring head cells) : head ∉ cells :=
  (List.nodup_cons.mp ring.nodup).1

/-- Neighbours on a ring are joined. -/
theorem Ring.joined (ring : links.Ring head (front ++ back)) :
    links.Joined (front.getLast?.getD head) (back.head?.getD head) := by
  have chain := ring.chain
  rw [List.append_assoc, ← List.cons_append] at chain
  have joined := (List.isChain_append.mp chain).2.2
  apply joined
  · simp [List.getLast?_cons]
  · simp

theorem Ring.joined_first (ring : links.Ring head cells) :
    links.Joined head (cells.head?.getD head) := by
  rw [← List.nil_append cells] at ring
  exact ring.joined

theorem Ring.joined_last (ring : links.Ring head cells) :
    links.Joined (cells.getLast?.getD head) head := by
  rw [← List.append_nil cells] at ring
  exact ring.joined

/-- From the head of a ring with cells it is one step back to the last of them. -/
theorem Ring.prev_head (ring : links.Ring head (front ++ cell :: back)) :
    links.prev head = some ((cell :: back).getLast (List.cons_ne_nil cell back)) := by
  have last := ring.joined_last.2
  rwa [List.getLast?_append, List.getLast?_eq_some_getLast (List.cons_ne_nil cell back)] at last

theorem Ring.joined_behind (ring : links.Ring head (front ++ cell :: back)) :
    links.Joined cell (back.head?.getD head) := by
  rw [List.append_cons] at ring
  simpa using ring.joined

/-- On a ring the two links are inverse to each other. -/
theorem Ring.inverse (ring : links.Ring head cells) (member : cell ∈ head :: cells) :
    links.Inverse cell := by
  have of_joined : ∀ before behind, links.Joined before cell → links.Joined cell behind →
      links.Inverse cell := by
    intro before behind back forth
    rw [Inverse, forth.1, back.2]
    exact ⟨forth.2, back.1⟩
  rcases List.mem_cons.mp member with rfl | inside
  · exact of_joined _ _ ring.joined_last ring.joined_first
  · obtain ⟨front, back, rfl⟩ := List.append_of_mem inside
    exact of_joined _ _ ring.joined ring.joined_behind

/-- The cells of a ring are a run. -/
theorem Ring.run (ring : links.Ring head cells) : cells.IsChain links.Joined := by
  apply ring.chain.infix
  exact ⟨[head], [head], by simp⟩

/-! ## Joining -/

variable [DecidableEq Cell]

def setNext (links : Links Cell) (cell : Cell) (link : Option Cell) : Links Cell :=
  { links with next := update links.next cell link }

def setPrev (links : Links Cell) (cell : Cell) (link : Option Cell) : Links Cell :=
  { links with prev := update links.prev cell link }

theorem next_setNext (links : Links Cell) (a cell : Cell) (link : Option Cell) :
    (links.setNext a link).next cell = if cell = a then link else links.next cell :=
  update_apply ..

@[simp] theorem prev_setNext (links : Links Cell) (a : Cell) (link : Option Cell) :
    (links.setNext a link).prev = links.prev := rfl

theorem prev_setPrev (links : Links Cell) (a cell : Cell) (link : Option Cell) :
    (links.setPrev a link).prev cell = if cell = a then link else links.prev cell :=
  update_apply ..

@[simp] theorem next_setPrev (links : Links Cell) (a : Cell) (link : Option Cell) :
    (links.setPrev a link).next = links.next := rfl

/-- Each of the two cells is made to lead to the other. -/
def join (links : Links Cell) (a b : Cell) : Links Cell :=
  (links.setNext a (some b)).setPrev b (some a)

private theorem joined_join (links : Links Cell) (a b : Cell) : (links.join a b).Joined a b :=
  ⟨update_self .., update_self ..⟩

theorem join_comm {c d : Cell} (other : a ≠ c) (another : b ≠ d) :
    (links.join a b).join c d = (links.join c d).join a b := by
  apply Links.ext
  · exact update_comm other ..
  · exact update_comm another ..

/-- A run keeps its links when neither a cell that has another one behind it nor one that is
behind another one is joined anew. -/
theorem isChain_join (chain : cells.IsChain links.Joined) (off : a ∉ cells.dropLast)
    (away : b ∉ cells.tail) : cells.IsChain (links.join a b).Joined := by
  rw [List.isChain_iff_forall_rel_of_append_cons_cons] at chain ⊢
  intro x y before behind split
  have joined := chain split
  have other : x ≠ a := by
    rintro rfl
    exact off (by simp [split])
  have another : y ≠ b := by
    rintro rfl
    apply away
    rw [split]
    cases before with
    | nil => exact List.mem_cons_self
    | cons z before => simp
  exact ⟨(update_of_ne other ..).trans joined.1,
    (update_of_ne another ..).trans joined.2⟩

/-- Two runs become one when the last cell of the first is joined to the first of the second. -/
theorem isChain_join_append (left : front.IsChain links.Joined) (right : back.IsChain links.Joined)
    (last : front.getLast? = some a) (first : back.head? = some b)
    (distinct : (front ++ back.dropLast).Nodup) (distinct' : (front.tail ++ back).Nodup) :
    (front ++ back).IsChain (links.join a b).Joined := by
  obtain ⟨before, rfl⟩ := List.getLast?_eq_some_iff.mp last
  obtain ⟨behind, rfl⟩ := List.head?_eq_some_iff.mp first
  obtain ⟨lefts, -, apart⟩ := List.nodup_append.mp distinct
  obtain ⟨-, rights, apart'⟩ := List.nodup_append.mp distinct'
  have inFront : a ∈ before ++ [a] := List.mem_append_right _ List.mem_cons_self
  refine List.isChain_append.mpr ⟨isChain_join left ?_ ?_, isChain_join right ?_ ?_, ?_⟩
  · rw [List.dropLast_concat]
    exact fun again => (List.nodup_append.mp lefts).2.2 a again a List.mem_cons_self rfl
  · exact fun again => apart' b again b List.mem_cons_self rfl
  · exact fun again => apart a inFront a again rfl
  · exact (List.nodup_cons.mp rights).1
  · intro x atLast y atFirst
    rw [last] at atLast
    cases atLast
    cases atFirst
    exact joined_join links a b

/-- A ring is not touched when cells off it are joined. -/
theorem Ring.join_off (ring : links.Ring head cells) (off : a ∉ head :: cells)
    (away : b ∉ head :: cells) : (links.join a b).Ring head cells := by
  refine ⟨isChain_join ring.chain ?_ ?_, ring.nodup⟩
  · rw [← List.cons_append, List.dropLast_concat]
    exact off
  · intro inside
    apply away
    rcases List.mem_append.mp inside with inside | inside
    · exact List.mem_cons_of_mem _ inside
    · exact List.mem_singleton.mp inside ▸ List.mem_cons_self

/-- A cell joined to itself is a ring without cells. -/
theorem ring_join_self (links : Links Cell) (cell : Cell) : (links.join cell cell).Ring cell [] :=
  ⟨List.isChain_pair.mpr (joined_join links cell cell), List.nodup_singleton cell⟩

/-- The cells between two neighbours of what is left are left out. -/
theorem Ring.cut (inner : List Cell) (ring : links.Ring head (front ++ (inner ++ back))) :
    (links.join (front.getLast?.getD head) (back.head?.getD head)).Ring head (front ++ back) := by
  have whole := ring.chain
  have distinct := ring.nodup
  have kept : (head :: (front ++ back)).Nodup := by
    apply List.Nodup.sublist _ distinct
    simp
  refine ⟨?_, kept⟩
  rw [List.append_assoc, ← List.cons_append]
  apply isChain_join_append
  · apply whole.infix
    exact ⟨[], inner ++ (back ++ [head]), by simp⟩
  · apply whole.infix
    exact ⟨head :: (front ++ inner), [], by simp⟩
  · simp [List.getLast?_cons]
  · simp
  · rw [List.dropLast_concat]
    exact kept
  · rw [List.tail_cons, ← List.append_assoc]
    exact (List.perm_append_singleton head (front ++ back)).nodup_iff.mpr kept

/-- A run of cells that are not on the ring is put between two neighbours. -/
theorem Ring.splice (ring : links.Ring head (front ++ back)) (run : inner.IsChain links.Joined)
    (first : inner.head? = some a) (last : inner.getLast? = some b)
    (distinct : (head :: (front ++ (inner ++ back))).Nodup) :
    ((links.join (front.getLast?.getD head) a).join b (back.head?.getD head)).Ring head
      (front ++ (inner ++ back)) := by
  have whole := ring.chain
  have inRing := getLast?_getD_mem head front
  have split := distinct
  rw [← List.cons_append] at split
  obtain ⟨-, lower, apart⟩ := List.nodup_append.mp split
  refine ⟨?_, distinct⟩
  have entered : ((head :: front) ++ inner).IsChain
      (links.join (front.getLast?.getD head) a).Joined := by
    apply isChain_join_append
    · apply whole.infix
      exact ⟨[], back ++ [head], by simp⟩
    · exact run
    · simp [List.getLast?_cons]
    · exact first
    · apply List.Nodup.sublist _ split
      apply (List.Sublist.refl _).append
      exact (List.dropLast_sublist inner).trans (List.sublist_append_left inner back)
    · apply List.Nodup.sublist _ (List.nodup_cons.mp distinct).2
      simp
  have rest : (back ++ [head]).IsChain (links.join (front.getLast?.getD head) a).Joined := by
    apply isChain_join
    · apply whole.infix
      exact ⟨head :: front, [], by simp⟩
    · rw [List.dropLast_concat]
      exact fun again => apart _ inRing _ (List.mem_append_right _ again) rfl
    · intro again
      rcases List.mem_append.mp (List.mem_of_mem_tail again) with again | again
      · exact (List.nodup_append.mp lower).2.2 a (List.mem_of_head? first) a again rfl
      · rw [List.mem_singleton] at again
        subst again
        exact apart a List.mem_cons_self a
          (List.mem_append_left _ (List.mem_of_head? first)) rfl
  have whole : (((head :: front) ++ inner) ++ (back ++ [head])).IsChain
      ((links.join (front.getLast?.getD head) a).join b (back.head?.getD head)).Joined := by
    apply isChain_join_append entered rest
    · rw [List.getLast?_append, last]
      rfl
    · simp
    · rw [List.dropLast_concat, List.append_assoc]
      exact split
    · have moved := List.perm_append_singleton head (front ++ (inner ++ back))
      simpa using moved.nodup_iff.mpr distinct
  simpa using whole

end Links

end TwoWay
