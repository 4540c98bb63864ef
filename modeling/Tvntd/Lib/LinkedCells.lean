import Mathlib.Data.List.Basic
import Mathlib.Data.List.Nodup
import Mathlib.Logic.Function.Basic
import Tvntd.Lib.Loop

/-! # Linked cells

Cells that hold the address of the next cell, or `none`. A segment is a list of
cells, each linked to the one behind it; a chain is a segment that ends with
`none`. From one cell there is one chain, so a chain visits no cell twice, and a
store to a cell off a segment leaves the segment alone. Linking and unlinking
behind a cell of a chain are single stores.
-/

universe u v w

namespace LinkedCells

variable {Cell : Type u}

/-- The cells from `start` on, up to the link `stop`. -/
def Segment (next : Cell → Option Cell) : Option Cell → List Cell → Option Cell → Prop
  | start, [], stop => start = stop
  | start, cell :: rest, stop => start = some cell ∧ Segment next (next cell) rest stop

/-- The cells from `first` on, all of them. -/
def ChainOf (next : Cell → Option Cell) (first : Cell) (cells : List Cell) : Prop :=
  Segment next (some first) cells none

instance instDecidableSegment [DecidableEq Cell] (next : Cell → Option Cell) :
    ∀ start cells stop, Decidable (Segment next start cells stop)
  | start, [], stop => inferInstanceAs (Decidable (start = stop))
  | start, cell :: rest, stop =>
      have := instDecidableSegment next (next cell) rest stop
      inferInstanceAs (Decidable (start = some cell ∧ Segment next (next cell) rest stop))

instance [DecidableEq Cell] (next : Cell → Option Cell) (first : Cell) (cells : List Cell) :
    Decidable (ChainOf next first cells) :=
  instDecidableSegment next (some first) cells none

variable {next other : Cell → Option Cell} {start stop : Option Cell} {first cell prev : Cell}
  {cells more done rest : List Cell}

private theorem segment_append : Segment next start (cells ++ more) stop ↔
    ∃ between, Segment next start cells between ∧ Segment next between more stop := by
  induction cells generalizing start with
  | nil => simp [Segment]
  | cons cell cells ih => simp [Segment, ih, and_assoc]

/-- A segment depends on its own cells only. -/
theorem Segment.congr (segment : Segment next start cells stop)
    (agrees : ∀ cell ∈ cells, other cell = next cell) : Segment other start cells stop := by
  induction cells generalizing start with
  | nil => exact segment
  | cons cell cells ih =>
      refine ⟨segment.1, ?_⟩
      rw [agrees cell List.mem_cons_self]
      exact ih segment.2 fun other member => agrees other (List.mem_cons_of_mem _ member)

theorem Segment.update [DecidableEq Cell] (segment : Segment next start cells stop)
    (off : cell ∉ cells) (link : Option Cell) :
    Segment (Function.update next cell link) start cells stop := by
  apply segment.congr
  intro other member
  apply Function.update_of_ne
  rintro rfl
  exact off member

theorem Segment.head? (segment : Segment next start cells none) : start = cells.head? := by
  cases cells with
  | nil => exact segment
  | cons cell cells => exact segment.1

/-- From one link there is one chain. -/
theorem Segment.unique (segment : Segment next start cells none)
    (also : Segment next start more none) : cells = more := by
  induction cells generalizing start more with
  | nil =>
      cases more with
      | nil => rfl
      | cons cell more =>
          rw [Segment] at segment
          rw [segment] at also
          cases also.1
  | cons cell cells ih =>
      cases more with
      | nil =>
          rw [Segment] at also
          rw [also] at segment
          cases segment.1
      | cons head more =>
          obtain ⟨here, later⟩ := segment
          obtain ⟨same, rest⟩ := also
          rw [here] at same
          cases same
          rw [ih later rest]

/-- The chain behind one of its cells. -/
theorem Segment.behind (segment : Segment next start (done ++ cell :: rest) stop) :
    Segment next (next cell) rest stop := by
  obtain ⟨between, -, later⟩ := segment_append.mp segment
  exact later.2

/-- A chain visits no cell twice. -/
theorem Segment.nodup (segment : Segment next start cells none) : cells.Nodup := by
  induction cells generalizing start with
  | nil => exact List.nodup_nil
  | cons cell cells ih =>
      refine List.nodup_cons.mpr ⟨?_, ih segment.2⟩
      intro again
      obtain ⟨before, after, split⟩ := List.append_of_mem again
      -- the chain behind the second visit is the chain behind the first one
      have first := segment.2
      have second : Segment next (next cell) after none := by
        rw [split] at first
        exact first.behind
      have same := congrArg List.length (first.unique second)
      rw [split, List.length_append, List.length_cons] at same
      omega

theorem ChainOf.unique (chain : ChainOf next first cells) (also : ChainOf next first more) :
    cells = more := Segment.unique chain also

theorem ChainOf.nodup (chain : ChainOf next first cells) : cells.Nodup := Segment.nodup chain

/-- The link of a cell of a chain. -/
theorem ChainOf.next_eq (done : List Cell) (chain : ChainOf next first (done ++ cell :: rest)) :
    next cell = rest.head? := (Segment.behind chain).head?

/-- The link of its first cell. -/
theorem ChainOf.head_eq (chain : ChainOf next first (cell :: rest)) : next cell = rest.head? :=
  ChainOf.next_eq [] chain

theorem ChainOf.congr (chain : ChainOf next first cells)
    (agrees : ∀ cell ∈ cells, other cell = next cell) : ChainOf other first cells :=
  Segment.congr chain agrees

/-- A cell that is not in the rest of its chain. -/
theorem ChainOf.notMem (done : List Cell)
    (chain : ChainOf next first (done ++ prev :: cell :: rest)) :
    cell ∉ done ++ prev :: rest := by
  have distinct := chain.nodup
  have permuted : (done ++ prev :: cell :: rest).Perm (cell :: (done ++ prev :: rest)) := by
    have moved := @List.perm_middle _ cell (done ++ [prev]) rest
    simpa using moved
  exact (List.nodup_cons.mp (permuted.nodup_iff.mp distinct)).1

/-- A loop that stands behind a cell of a chain and passes over the cells `before`. Its variables
are given by that cell, by its link and by the cells that were passed. -/
theorem ChainOf.walk {State : Type v} {Result : Type w} (loop : Loop State Result)
    (vars : Cell → Option Cell → List Cell → State) {before : List Cell}
    (turn : ∀ prev curr passed, curr ∈ before → next prev = some curr →
      loop.turn (vars prev (some curr) passed) =
        some (.inl (vars curr (next curr) (passed ++ [curr])))) :
    ∀ (done : List Cell) {prev : Cell} (passed : List Cell),
      ChainOf next first (done ++ prev :: (before ++ rest)) →
        ∃ front last, prev :: before = front ++ [last] ∧
          loop.Goes (vars prev (before ++ rest).head? passed)
            (vars last rest.head? (passed ++ before)) := by
  induction before with
  | nil => exact fun _ _ passed _ => ⟨[], _, rfl, by rw [List.append_nil]; exact .refl _⟩
  | cons curr before ih =>
      intro done prev passed chain
      have here : next prev = some curr := chain.next_eq done
      have shifted : ChainOf next first ((done ++ [prev]) ++ curr :: (before ++ rest)) := by
        simpa using chain
      have goes := turn prev curr passed List.mem_cons_self here
      rw [shifted.next_eq] at goes
      obtain ⟨front, last, split, later⟩ :=
        ih (fun prev cell passed member => turn prev cell passed (List.mem_cons_of_mem _ member)) _
          (passed ++ [curr]) shifted
      rw [List.append_assoc, List.singleton_append] at later
      exact ⟨prev :: front, last, by rw [split]; rfl, later.head goes⟩

variable [DecidableEq Cell]

/-- A store to a cell that a chain does not visit. -/
theorem ChainOf.update (chain : ChainOf next first cells) (off : cell ∉ cells)
    (link : Option Cell) : ChainOf (Function.update next cell link) first cells :=
  Segment.update chain off link

/-- A store to a cell of a chain puts another rest behind it. -/
theorem ChainOf.store (done : List Cell) (chain : ChainOf next first (done ++ prev :: rest))
    {link : Option Cell} (behind : Segment next link more none) (off : prev ∉ more) :
    ChainOf (Function.update next prev link) first (done ++ prev :: more) := by
  have distinct := List.nodup_append.mp chain.nodup
  have before : prev ∉ done := fun member =>
    distinct.2.2 prev member prev List.mem_cons_self rfl
  obtain ⟨between, front, back⟩ := segment_append.mp chain
  refine segment_append.mpr ⟨between, front.update before link, back.1, ?_⟩
  rw [Function.update_self]
  exact behind.update off link

/-- The cell behind `prev` is unlinked. -/
theorem ChainOf.unlink (done : List Cell)
    (chain : ChainOf next first (done ++ prev :: cell :: rest)) :
    ChainOf (Function.update next prev (next cell)) first (done ++ prev :: rest) := by
  have split : done ++ prev :: cell :: rest = (done ++ [prev]) ++ cell :: rest := by simp
  apply chain.store done
  · rw [split] at chain
    exact Segment.behind chain
  · have distinct := chain.nodup
    simp only [List.nodup_append, List.nodup_cons, List.mem_cons, not_or] at distinct
    exact distinct.2.1.1.2

/-- A new cell is linked behind `prev`, in front of the cells that were there. -/
theorem ChainOf.link (done : List Cell) (chain : ChainOf next first (done ++ prev :: rest))
    (off : cell ∉ done ++ prev :: rest) (linked : next cell = rest.head?) :
    ChainOf (Function.update next prev (some cell)) first (done ++ prev :: cell :: rest) := by
  apply chain.store done
  · refine ⟨rfl, ?_⟩
    rw [linked, ← chain.next_eq done]
    exact Segment.behind chain
  · have distinct := chain.nodup
    simp only [List.nodup_append, List.nodup_cons] at distinct
    rw [List.mem_cons, not_or]
    refine ⟨?_, distinct.2.1.1⟩
    rintro rfl
    exact off (List.mem_append_right _ List.mem_cons_self)

/-- A cell that is written first and then linked behind `prev`. -/
theorem ChainOf.insert (done : List Cell) (chain : ChainOf next first (done ++ prev :: rest))
    (off : cell ∉ done ++ prev :: rest) :
    ChainOf (Function.update (Function.update next cell rest.head?) prev (some cell)) first
      (done ++ prev :: cell :: rest) := by
  apply (chain.update off rest.head?).link done off
  exact Function.update_self ..

/-- A cell that is linked behind `prev` first and written then. -/
theorem ChainOf.insert' (done : List Cell) (chain : ChainOf next first (done ++ prev :: rest))
    (off : cell ∉ done ++ prev :: rest) :
    ChainOf (Function.update (Function.update next prev (some cell)) cell rest.head?) first
      (done ++ prev :: cell :: rest) := by
  have away : cell ≠ prev := by
    rintro rfl
    exact off (List.mem_append_right _ List.mem_cons_self)
  rw [← Function.update_comm away]
  exact chain.insert done off

/-- The cell behind `prev` is unlinked and its own link is reset. -/
theorem ChainOf.remove (done : List Cell)
    (chain : ChainOf next first (done ++ prev :: cell :: rest)) :
    ChainOf (Function.update (Function.update next prev (next cell)) cell none) first
      (done ++ prev :: rest) := (chain.unlink done).update (chain.notMem done) none

end LinkedCells
