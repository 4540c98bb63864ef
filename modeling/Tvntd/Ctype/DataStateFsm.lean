import Mathlib.Data.List.Basic
import Tvntd.Lib.Loop

/-! # State tables

The table verifier and the event dispatcher of `common/ctype/data-statefsm.c`. The
verifier passes over a state without arcs, which the dispatcher does not expect:
it takes the arc of the event from the arcs of the current state, whatever they
are. With arcs in every state what the verifier checks is what the dispatcher
needs.

`none` in place of a turn is a null pointer that is followed, an index outside of
the table or a failed `assert`.
-/

namespace Tvntd

/-- `DST_EVT_NO_OP` -/
def dstEvtNoOp : BitVec 32 := 0xffffffff

/-- `DST_EXE_NEXT_ST` -/
def dstExeNextSt : BitVec 32 := 0x00000001

/-- `DST_NEXT_STATIC` -/
def dstNextStatic : BitVec 32 := 0x00000002

/-- `DST_CHG_ST_1ST` -/
def dstChgSt1st : BitVec 32 := 0x00000004

/-- What an action works on: the structure the state is embedded in, the state and the event. -/
structure DtStateObj (σ : Type*) where
  data : σ
  dstIdx : BitVec 32
  dstEvt : BitVec 32

/-- `dt_state_arc_t` -/
structure DtStateArc (σ : Type*) where
  dstEvtCode : BitVec 32
  dstExeFlags : BitVec 32
  dstNextState : BitVec 32
  dstActionFn : Option (DtStateObj σ → DtStateObj σ)

/-- `dt_state_defs_t`; `none` is `NULL` in place of the arcs. -/
structure DtStateDefs (σ : Type*) where
  dstIndex : BitVec 32
  dstTransArcs : Option (List (DtStateArc σ))

/-- `dt_state_fsm_t` -/
structure DtStateFsm (σ : Type*) where
  dstNumEvts : BitVec 32
  dstNumStates : BitVec 32
  dstStates : List (DtStateDefs σ)

variable {σ : Type*}

/-- `verify` on one arc of a state. -/
def verifyArc (tab : DtStateFsm σ) (cur : DtStateDefs σ) (evt : Nat) : Bool :=
  match cur.dstTransArcs with
  | none => true
  | some arcs =>
      match arcs[evt]? with
      | none => false
      | some arc =>
          arc.dstEvtCode.toNat = evt &&
            if arc.dstExeFlags &&& dstChgSt1st ≠ 0 ∨ arc.dstExeFlags &&& dstNextStatic ≠ 0 then
              arc.dstNextState.toNat < tab.dstNumStates.toNat
            else true

/-- `dt_state_verify_table` accepts: no `verify` fails and nothing outside of the table is read. -/
def dtStateVerifyTable (tab : DtStateFsm σ) : Bool :=
  (List.range tab.dstNumStates.toNat).all fun i =>
    match tab.dstStates[i]? with
    | none => false
    | some cur =>
        cur.dstIndex.toNat = i && (List.range tab.dstNumEvts.toNat).all (verifyArc tab cur)

/-- What is done for one arc, and whether the dispatcher goes on. -/
def exeArc (arc : DtStateArc σ) (st : DtStateObj σ) : DtStateObj σ ⊕ DtStateObj σ :=
  let pre := st.dstIdx
  -- If want to change the state before calling the action.
  let st :=
    if arc.dstExeFlags &&& dstChgSt1st ≠ 0 then { st with dstIdx := arc.dstNextState } else st
  let st :=
    match arc.dstActionFn with
    | some act => act st
    | none => st
  let st :=
    if st.dstIdx = pre ∧ arc.dstExeFlags &&& dstNextStatic ≠ 0 then
      { st with dstIdx := arc.dstNextState }
    else st
  if arc.dstExeFlags &&& dstExeNextSt ≠ 0 then .inl st else .inr st

/-- `dt_state_evt` -/
def dtStateEvt (tab : DtStateFsm σ) : Loop (DtStateObj σ) (DtStateObj σ) where
  turn st :=
    if st.dstEvt = dstEvtNoOp then some (.inr st)
    else if st.dstEvt.toNat < tab.dstNumEvts.toNat ∧ st.dstIdx.toNat < tab.dstNumStates.toNat then
      tab.dstStates[st.dstIdx.toNat]?.bind fun cur =>
        cur.dstTransArcs.bind fun arcs =>
          arcs[st.dstEvt.toNat]?.map fun arc => exeArc arc st
    else none

/-- The state and the event are in range, or there is no event left. -/
structure DtInRange (tab : DtStateFsm σ) (st : DtStateObj σ) : Prop where
  idx : st.dstIdx.toNat < tab.dstNumStates.toNat
  evt : st.dstEvt = dstEvtNoOp ∨ st.dstEvt.toNat < tab.dstNumEvts.toNat

/-- The actions keep the state and the event in range. -/
def ActionsInRange (tab : DtStateFsm σ) : Prop :=
  ∀ cur ∈ tab.dstStates, ∀ arcs, cur.dstTransArcs = some arcs → ∀ arc ∈ arcs, ∀ act,
    arc.dstActionFn = some act → ∀ st, DtInRange tab st → DtInRange tab (act st)

/-- Every state of the table has arcs. -/
def AllArcs (tab : DtStateFsm σ) : Prop :=
  ∀ i < tab.dstNumStates.toNat, ∀ cur, tab.dstStates[i]? = some cur → cur.dstTransArcs ≠ none

/-- The dispatcher serves the events one after the other: it never goes wrong, its state stays
below the number of states, and so it is for the events behind one it returned from. -/
def Dispatches (tab : DtStateFsm σ) : σ → BitVec 32 → List (BitVec 32) → Prop
  | _, _, [] => True
  | data, idx, evt :: rest =>
      (∀ st, (dtStateEvt tab).Goes ⟨data, idx, evt⟩ st →
        (dtStateEvt tab).turn st ≠ none ∧ st.dstIdx.toNat < tab.dstNumStates.toNat) ∧
      ∀ st, (dtStateEvt tab).Returns ⟨data, idx, evt⟩ st →
        st.dstIdx.toNat < tab.dstNumStates.toNat ∧ Dispatches tab st.data st.dstIdx rest

variable {tab : DtStateFsm σ} {st : DtStateObj σ}

/-- What the verifier established of a state and one of its arcs. -/
theorem verified_state (accepted : dtStateVerifyTable tab = true) {i : Nat}
    (inside : i < tab.dstNumStates.toNat) :
    ∃ cur, tab.dstStates[i]? = some cur ∧
      ∀ evt < tab.dstNumEvts.toNat, verifyArc tab cur evt = true := by
  have here := List.all_eq_true.mp accepted i (List.mem_range.mpr inside)
  cases found : tab.dstStates[i]? with
  | none => simp [found] at here
  | some cur =>
      simp only [found, Bool.and_eq_true, List.all_eq_true, List.mem_range] at here
      exact ⟨cur, rfl, here.2⟩

private theorem verified_arc {cur : DtStateDefs σ} {arcs : List (DtStateArc σ)} {evt : Nat}
    (verified : verifyArc tab cur evt = true) (some : cur.dstTransArcs = some arcs) :
    ∃ arc, arcs[evt]? = Option.some arc ∧
      (arc.dstExeFlags &&& dstChgSt1st ≠ 0 ∨ arc.dstExeFlags &&& dstNextStatic ≠ 0 →
        arc.dstNextState.toNat < tab.dstNumStates.toNat) := by
  unfold verifyArc at verified
  simp only [some] at verified
  cases found : arcs[evt]? with
  | none => simp [found] at verified
  | some arc =>
      simp only [found, Bool.and_eq_true] at verified
      refine ⟨arc, rfl, fun moves => ?_⟩
      have next := verified.2
      rw [if_pos moves] at next
      exact of_decide_eq_true next

/-- An arc whose next state is in range, where it has one, keeps the state in range. -/
theorem exeArc_inRange {arc : DtStateArc σ} {next : DtStateObj σ}
    (moves : arc.dstExeFlags &&& dstChgSt1st ≠ 0 ∨ arc.dstExeFlags &&& dstNextStatic ≠ 0 →
      arc.dstNextState.toNat < tab.dstNumStates.toNat)
    (acts : ∀ act, arc.dstActionFn = some act → ∀ st, DtInRange tab st → DtInRange tab (act st))
    (inRange : DtInRange tab st) (done : exeArc arc st = .inl next ∨ exeArc arc st = .inr next) :
    DtInRange tab next := by
  -- the three assignments one after the other
  have first : DtInRange tab
      (if arc.dstExeFlags &&& dstChgSt1st ≠ 0 then { st with dstIdx := arc.dstNextState }
        else st) := by
    split
    · next set => exact ⟨moves (.inl set), inRange.evt⟩
    · exact inRange
  have second : ∀ st, DtInRange tab st → DtInRange tab
      (match arc.dstActionFn with | some act => act st | none => st) := by
    intro st inRange
    cases action : arc.dstActionFn with
    | none => exact inRange
    | some act => exact acts act action st inRange
  have third : ∀ pre st, DtInRange tab st → DtInRange tab
      (if st.dstIdx = pre ∧ arc.dstExeFlags &&& dstNextStatic ≠ 0 then
        { st with dstIdx := arc.dstNextState } else st) := by
    intro pre st inRange
    split
    · next set => exact ⟨moves (.inr set.2), inRange.evt⟩
    · exact inRange
  have last := third st.dstIdx _ (second _ first)
  unfold exeArc at done
  simp only at done
  split at done
  · rcases done with done | done
    · exact Sum.inl.inj done ▸ last
    · cases done
  · rcases done with done | done
    · cases done
    · exact Sum.inr.inj done ▸ last

/-- A turn of the dispatcher does not go wrong and keeps the state in range. -/
theorem dtStateEvt_turn (accepted : dtStateVerifyTable tab = true) (arcs : AllArcs tab)
    (acts : ActionsInRange tab) (inRange : DtInRange tab st) :
    ∃ outcome, (dtStateEvt tab).turn st = some outcome ∧
      ∀ next, outcome = .inl next ∨ outcome = .inr next → DtInRange tab next := by
  by_cases served : st.dstEvt = dstEvtNoOp
  · refine ⟨.inr st, if_pos served, ?_⟩
    rintro next (same | same)
    · cases same
    · cases same
      exact inRange
  · have evt := inRange.evt.resolve_left served
    obtain ⟨cur, found, verified⟩ := verified_state accepted inRange.idx
    obtain ⟨list, linked⟩ := Option.ne_none_iff_exists'.mp (arcs _ inRange.idx cur found)
    obtain ⟨arc, arcFound, moves⟩ := verified_arc (verified _ evt) linked
    refine ⟨exeArc arc st, ?_, fun next => exeArc_inRange moves ?_ inRange⟩
    · simp only [dtStateEvt, if_neg served, if_pos (And.intro evt inRange.idx), found, linked,
        arcFound, Option.bind_some, Option.map_some]
    · exact acts cur (List.mem_of_getElem? found) list linked arc (List.mem_of_getElem? arcFound)

theorem dispatches_of_allArcs (accepted : dtStateVerifyTable tab = true) (arcs : AllArcs tab)
    (acts : ActionsInRange tab) {evts : List (BitVec 32)}
    (inside : ∀ evt ∈ evts, evt.toNat < tab.dstNumEvts.toNat) {data : σ} {idx : BitVec 32}
    (current : idx.toNat < tab.dstNumStates.toNat) : Dispatches tab data idx evts := by
  induction evts generalizing data idx with
  | nil => trivial
  | cons evt rest ih =>
      have start : DtInRange tab ⟨data, idx, evt⟩ := ⟨current, .inr (inside evt List.mem_cons_self)⟩
      have keeps : ∀ st next, DtInRange tab st → (dtStateEvt tab).turn st = some (.inl next) →
          DtInRange tab next := by
        intro st next inRange went
        obtain ⟨outcome, turned, each⟩ := dtStateEvt_turn accepted arcs acts inRange
        rw [turned] at went
        exact each next (.inl (Option.some.inj went))
      refine ⟨?_, ?_⟩
      · intro st goes
        have inRange := goes.of_invariant (DtInRange tab) keeps start
        obtain ⟨outcome, turned, -⟩ := dtStateEvt_turn accepted arcs acts inRange
        exact ⟨turned ▸ Option.some_ne_none outcome, inRange.idx⟩
      · intro st returns
        have ends : ∀ st final, DtInRange tab st →
            (dtStateEvt tab).turn st = some (.inr final) → DtInRange tab final := by
          intro st final inRange done
          obtain ⟨outcome, turned, each⟩ := dtStateEvt_turn accepted arcs acts inRange
          rw [turned] at done
          exact each final (.inr (Option.some.inj done))
        have inRange := returns.of_invariant (DtInRange tab) (DtInRange tab) keeps ends start
        exact ⟨inRange.idx, ih (fun evt member => inside evt (List.mem_cons_of_mem _ member))
          inRange.idx⟩

/-- A state without arcs is not served. -/
theorem dtStateEvt_noArcs {cur : DtStateDefs σ} (found : tab.dstStates[st.dstIdx.toNat]? = some cur)
    (none : cur.dstTransArcs = none) (evt : st.dstEvt ≠ dstEvtNoOp) :
    (dtStateEvt tab).turn st = Option.none := by
  simp only [dtStateEvt, if_neg evt, found, Option.bind_some, none, Option.bind_none, ite_self]

/-- **The dispatcher over accepted tables.** With actions that keep what they report in range, the
dispatcher serves every sequence of events from every state exactly for the tables in which every
state has arcs, or which have no events. -/
theorem dtStateEvt_safe_iff [Inhabited σ] (tab : DtStateFsm σ)
    (accepted : dtStateVerifyTable tab = true) (acts : ActionsInRange tab) :
    (∀ (data : σ) (idx : BitVec 32) (evts : List (BitVec 32)),
      idx.toNat < tab.dstNumStates.toNat → (∀ evt ∈ evts, evt.toNat < tab.dstNumEvts.toNat) →
        Dispatches tab data idx evts) ↔ tab.dstNumEvts = 0 ∨ AllArcs tab := by
  constructor
  · intro safe
    by_contra neither
    rw [not_or] at neither
    obtain ⟨noEvts, missing⟩ := neither
    unfold AllArcs at missing
    push Not at missing
    obtain ⟨i, inside, cur, found, none⟩ := missing
    have index : (BitVec.ofNat 32 i).toNat = i := by
      rw [BitVec.toNat_ofNat, Nat.mod_eq_of_lt (Nat.lt_trans inside tab.dstNumStates.isLt)]
    have positive : 0 < tab.dstNumEvts.toNat := by
      rw [Nat.pos_iff_ne_zero]
      exact fun zero => noEvts (BitVec.eq_of_toNat_eq zero)
    have served := safe default (BitVec.ofNat 32 i) [0] (index.symm ▸ inside)
      (by simpa using positive)
    have evt : (0 : BitVec 32) ≠ dstEvtNoOp := by decide
    refine (served.1 _ (.refl _)).1 (dtStateEvt_noArcs ?_ none evt)
    rw [index]
    exact found
  · rintro (noEvts | arcs)
    · intro data idx evts _ inside
      cases evts with
      | nil => trivial
      | cons evt rest =>
          have below := inside evt List.mem_cons_self
          rw [noEvts] at below
          exact absurd below (Nat.not_lt_zero _)
    · intro data idx evts current inside
      exact dispatches_of_allArcs accepted arcs acts inside current

/-- A table with one event and two states, the second of which has no arcs. -/
def noArcsTable : DtStateFsm Unit :=
  ⟨1, 2, [⟨0, some [⟨0, dstNextStatic, 1, none⟩]⟩, ⟨1, none⟩]⟩

/-- The verifier accepts it, and the second event is dispatched through a null pointer. -/
theorem noArcsTable_wrong :
    dtStateVerifyTable noArcsTable = true ∧ ActionsInRange noArcsTable ∧
      ¬ Dispatches noArcsTable () 0 [0, 0] := by
  refine ⟨by decide, by simp [ActionsInRange, noArcsTable], ?_⟩
  intro served
  have moved : (dtStateEvt noArcsTable).turn ⟨(), 0, 0⟩ = some (.inr ⟨(), 1, 0⟩) := rfl
  have second := (served.2 _ (Loop.returns_of_done moved)).2
  exact (second.1 _ (.refl _)).1 rfl

/-- A table with one state, whose action ends the events. -/
def oneStateTable : DtStateFsm Unit :=
  ⟨1, 1, [⟨0, some [⟨0, dstExeNextSt, 0, some fun st => { st with dstEvt := dstEvtNoOp }⟩]⟩]⟩

theorem oneStateTable_dispatches : Dispatches oneStateTable () 0 [0, 0, 0] := by
  have acts : ActionsInRange oneStateTable := by
    intro cur member arcs linked arc inside act action st inRange
    simp only [oneStateTable, List.mem_singleton] at member
    subst member
    simp only [Option.some.injEq] at linked
    subst linked
    rw [List.mem_singleton.mp inside, Option.some.injEq] at action
    subst action
    exact ⟨inRange.idx, .inl rfl⟩
  have arcs : AllArcs oneStateTable := by
    intro i inside cur found
    have first : i = 0 := Nat.lt_one_iff.mp inside
    subst first
    simp only [oneStateTable, List.getElem?_cons_zero, Option.some.injEq] at found
    subst found
    simp
  have accepted : dtStateVerifyTable oneStateTable = true := by decide
  exact (dtStateEvt_safe_iff oneStateTable accepted acts).mpr (.inr arcs) () 0 [0, 0, 0]
    Nat.one_pos (by simp [oneStateTable])

end Tvntd
