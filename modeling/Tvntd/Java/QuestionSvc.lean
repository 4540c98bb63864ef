import Tvntd.Java.Text
import Tvntd.Lib.HashMap
import Mathlib.Data.Fintype.Card
import Mathlib.Data.Set.Finite.List
import Mathlib.Logic.Relation

/-! # Questions and the questions they link to

The questions of a page come in any order, and some link to others. One map keeps
the questions that are not linked to yet: a question that is linked to is taken
out of it, so that the answers find those that are left, which are returned.
-/

namespace Tvntd.QuestionSvc

open Function

structure Question where
  questUuid : String
  linkUuid : Option String
  quesType : Option Int64
deriving DecidableEq

structure Answer where
  id : Int
  questUuid : Option String
deriving DecidableEq

def helpModal : Int64 := 1

def resultLink : Int64 := 2

/-- The objects of `Question`, with what is not stored of them; no list of answers is the empty
list. -/
structure QuestHeap (Ref : Type) where
  question : Ref → Question
  linkQuestion : Ref → Option Ref
  linkResult : Ref → Option Ref
  answer : Ref → List Answer

variable {Ref : Type}

/-- Questions as they are loaded. -/
def QuestHeap.loaded (question : Ref → Question) : QuestHeap Ref where
  question := question
  linkQuestion := fun _ => none
  linkResult := fun _ => none
  answer := fun _ => []

variable [DecidableEq Ref]

namespace QuestHeap

def connectLink (heap : QuestHeap Ref) (q link : Ref) :
    Except Exception (QuestHeap Ref × Bool) :=
  match (heap.question link).quesType with
  | none => .error .nullPointer
  | some quesType =>
      if quesType &&& helpModal ≠ 0 then
        .ok ({ heap with linkQuestion := update heap.linkQuestion q (some link) }, true)
      else if quesType &&& resultLink ≠ 0 then
        .ok ({ heap with linkResult := update heap.linkResult q (some link) }, true)
      else .ok (heap, false)

def setAnswer (heap : QuestHeap Ref) (q : Ref) (answer : Answer) : QuestHeap Ref :=
  { heap with answer := update heap.answer q (heap.answer q ++ [answer]) }

end QuestHeap

/-- The variables of `convertDTO`. -/
structure Pass (Ref : Type) where
  heap : QuestHeap Ref
  fixup : List Ref
  map : HashMap String Ref

/-- Connects a question that was found, and takes it out of the map. -/
def Pass.connect (pass : Pass Ref) (q link : Ref) (linkUuid : String) :
    Except Exception (Pass Ref) :=
  match pass.heap.connectLink q link with
  | .error error => .error error
  | .ok (heap, _) => .ok { pass with heap := heap, map := AList.erase linkUuid pass.map }

def Pass.put (pass : Pass Ref) (q : Ref) : Pass Ref :=
  { pass with map := AList.insert (pass.heap.question q).questUuid q pass.map }

/-- The first loop: a question is put in the map after its link is looked for. -/
def registerQuestion (pass : Pass Ref) (q : Ref) : Except Exception (Pass Ref) :=
  match (pass.heap.question q).linkUuid with
  | none => .ok (pass.put q)
  | some linkUuid =>
      match pass.map.lookup linkUuid with
      | none => .ok (Pass.put { pass with fixup := pass.fixup ++ [q] } q)
      | some link =>
          match pass.connect q link linkUuid with
          | .error error => .error error
          | .ok pass => .ok (pass.put q)

/-- The second loop; the questions of it have links. -/
def fixupQuestion (pass : Pass Ref) (q : Ref) : Except Exception (Pass Ref) :=
  match (pass.heap.question q).linkUuid with
  | none => .ok pass
  | some linkUuid =>
      match pass.map.lookup linkUuid with
      | none => .ok pass
      | some link => pass.connect q link linkUuid

/-- The third loop. -/
def answerQuestion (map : HashMap String Ref) (heap : QuestHeap Ref) (a : Answer) :
    QuestHeap Ref :=
  match a.questUuid.bind fun questUuid => map.lookup questUuid with
  | none => heap
  | some q => heap.setAnswer q a

/-- The questions that are returned, with the links and the answers. -/
def convertDTO (heap : QuestHeap Ref) (quest : List Ref) (ans : List Answer) :
    Except Exception (QuestHeap Ref × List Ref) := do
  let pass ← quest.foldlM registerQuestion ⟨heap, [], ∅⟩
  let pass ← pass.fixup.foldlM fixupQuestion pass
  .ok (ans.foldl (answerQuestion pass.map) pass.heap, pass.map.values)

/-! ## What is asked of the conversion -/

/-- A question is connected to another one. -/
def QuestHeap.Connected (heap : QuestHeap Ref) (q link : Ref) : Prop :=
  heap.linkQuestion q = some link ∨ heap.linkResult q = some link

/-- The uuid that a question links to is that of a question of the list. -/
structure LinksTo (question : Ref → Question) (quest : List Ref) (q link : Ref) : Prop where
  linking : q ∈ quest
  linked : link ∈ quest
  uuid : (question q).linkUuid = some (question link).questUuid

/-- A help or result question. -/
def HelpOrResult (question : Question) : Prop :=
  ∃ quesType, question.quesType = some quesType ∧
    (quesType &&& helpModal ≠ 0 ∨ quesType &&& resultLink ≠ 0)

/-- Nothing is lost: every question is reached from those that are returned, every link to a help
or result question is connected, and every answer is attached to its question. -/
structure Complete (question : Ref → Question) (quest : List Ref) (ans : List Answer)
    (heap : QuestHeap Ref) (out : List Ref) : Prop where
  reached : ∀ q ∈ quest, ∃ top ∈ out, Relation.ReflTransGen heap.Connected top q
  connected : ∀ q link, LinksTo question quest q link → HelpOrResult (question link) →
    heap.Connected q link
  attached : ∀ a ∈ ans, ∀ q ∈ quest, a.questUuid = some (question q).questUuid →
    a ∈ heap.answer q

/-- The answer is built, with everything that belongs to it. -/
def Right (question : Ref → Question) (quest : List Ref) (ans : List Answer) : Prop :=
  ∃ heap out, convertDTO (.loaded question) quest ans = .ok (heap, out) ∧
    Complete question quest ans heap out

/-- A question that others link to is a help or result question, only one other links to it, and it
has no answers. -/
def LinkedOnce (question : Ref → Question) (quest : List Ref) (ans : List Answer) : Prop :=
  ∀ q link, LinksTo question quest q link → HelpOrResult (question link) ∧
    (∀ other, LinksTo question quest other link → other = q) ∧
      ∀ a ∈ ans, a.questUuid ≠ some (question link).questUuid

/-! ## One connection -/

variable {question : Ref → Question} {quest seen : List Ref} {ans : List Answer}
  {heap : QuestHeap Ref} {pass : Pass Ref}

/-- What connecting a question that is not connected does. -/
structure ConnectedTo (before after : QuestHeap Ref) (q link : Ref) : Prop where
  questions : after.question = before.question
  answers : after.answer = before.answer
  iff : ∀ x y, after.Connected x y ↔ before.Connected x y ∨
    x = q ∧ y = link ∧ HelpOrResult (before.question link)

private theorem connected_update {linked : Ref → Option Ref} {q : Ref} (free : linked q = none)
    (result : Ref → Option Ref) (link x y : Ref) :
    update linked q (some link) x = some y ∨ result x = some y ↔
      (linked x = some y ∨ result x = some y) ∨ x = q ∧ y = link := by
  by_cases here : x = q
  · subst here
    rw [update_self, free]
    grind
  · rw [update_of_ne here]
    grind

private theorem connectLink_spec {q : Ref} (link : Ref) (free : ∀ y, ¬ heap.Connected q y) :
    match heap.connectLink q link with
    | .ok (next, _) => ConnectedTo heap next q link
    | .error _ => (heap.question link).quesType = none := by
  have unlinked : heap.linkQuestion q = none := by
    rw [Option.eq_none_iff_forall_ne_some]
    exact fun y here => free y (Or.inl here)
  have unresolved : heap.linkResult q = none := by
    rw [Option.eq_none_iff_forall_ne_some]
    exact fun y here => free y (Or.inr here)
  unfold QuestHeap.connectLink
  cases type : (heap.question link).quesType with
  | none => rfl
  | some quesType =>
      by_cases help : quesType &&& helpModal ≠ 0
      · simp only [if_pos help]
        refine ⟨rfl, rfl, fun x y => ?_⟩
        have kind : HelpOrResult (heap.question link) := ⟨quesType, type, Or.inl help⟩
        have change := connected_update unlinked heap.linkResult link x y
        unfold QuestHeap.Connected
        grind
      · by_cases result : quesType &&& resultLink ≠ 0
        · simp only [if_neg help, if_pos result]
          refine ⟨rfl, rfl, fun x y => ?_⟩
          have kind : HelpOrResult (heap.question link) := ⟨quesType, type, Or.inr result⟩
          have change := connected_update unresolved heap.linkQuestion link x y
          unfold QuestHeap.Connected
          grind
        · simp only [if_neg help, if_neg result]
          refine ⟨rfl, rfl, fun x y => ?_⟩
          have ordinary : ¬ HelpOrResult (heap.question link) := by
            rintro ⟨other, same, kind⟩
            cases type.symm.trans same
            exact kind.elim help result
          grind

/-! ## The loops -/

/-- What is known of the questions that have been put in the map: those that were taken out are
linked to, and connected to one question if they are of the right type. -/
structure Kept (question : Ref → Question) (quest seen : List Ref) (pass : Pass Ref) : Prop where
  questions : pass.heap.question = question
  answers : ∀ q, pass.heap.answer q = []
  mapped : ∀ uuid link, pass.map.lookup uuid = some link →
    link ∈ seen ∧ (question link).questUuid = uuid
  taken : ∀ link ∈ seen, pass.map.lookup (question link).questUuid = none →
    ∃ q, LinksTo question quest q link ∧
      (HelpOrResult (question link) → pass.heap.Connected q link)
  sound : ∀ q link, pass.heap.Connected q link → LinksTo question quest q link ∧
    HelpOrResult (question link) ∧ pass.map.lookup (question link).questUuid = none ∧ link ∈ seen
  once : ∀ q other link, pass.heap.Connected q link → pass.heap.Connected other link → q = other

omit [DecidableEq Ref] in
private theorem Kept.put_map (kept : Kept question quest seen pass) (q : Ref) :
    (pass.put q).map = AList.insert (question q).questUuid q pass.map := by
  rw [Pass.put, kept.questions]

omit [DecidableEq Ref] in
theorem Kept.put (kept : Kept question quest seen pass) {q : Ref}
    (fresh : ∀ other ∈ seen, (question other).questUuid ≠ (question q).questUuid) :
    Kept question quest (seen ++ [q]) (pass.put q) := by
  have map := kept.put_map q
  obtain ⟨questions, answers, mapped, taken, sound, once⟩ := kept
  refine ⟨questions, answers, ?_, ?_, ?_, once⟩
  · rw [map]
    intro uuid link found
    by_cases here : uuid = (question q).questUuid
    · subst here
      rw [AList.lookup_insert] at found
      cases found
      exact ⟨List.mem_append_right _ (List.mem_singleton_self _), rfl⟩
    · rw [AList.lookup_insert_ne here] at found
      obtain ⟨inside, same⟩ := mapped uuid link found
      exact ⟨List.mem_append_left _ inside, same⟩
  · rw [map]
    intro link inside absent
    rcases List.mem_append.mp inside with before | now
    · rw [AList.lookup_insert_ne (fresh link before)] at absent
      exact taken link before absent
    · rw [List.mem_singleton.mp now, AList.lookup_insert] at absent
      cases absent
  · intro x link connected
    obtain ⟨links, kind, absent, inside⟩ := sound x link connected
    refine ⟨links, kind, ?_, List.mem_append_left _ inside⟩
    rw [map, AList.lookup_insert_ne (fresh link inside)]
    exact absent

theorem Kept.connect (kept : Kept question quest seen pass)
    (distinct : (quest.map fun q => (question q).questUuid).Nodup) {q link : Ref}
    {linkUuid : String} (inside : q ∈ quest) (known : seen ⊆ quest)
    (uuid : (question q).linkUuid = some linkUuid) (found : pass.map.lookup linkUuid = some link) :
    match pass.connect q link linkUuid with
    | .ok next => Kept question quest seen next ∧ next.fixup = pass.fixup ∧
        next.map = AList.erase linkUuid pass.map
    | .error _ => LinksTo question quest q link ∧ (question link).quesType = none := by
  obtain ⟨questions, answers, mapped, taken, sound, once⟩ := kept
  obtain ⟨within, same⟩ := mapped linkUuid link found
  have links : LinksTo question quest q link := ⟨inside, known within, by rw [uuid, same]⟩
  have free : ∀ y, ¬ pass.heap.Connected q y := by
    intro y connected
    obtain ⟨other, -, absent, -⟩ := sound q y connected
    have equal := uuid.symm.trans other.uuid
    rw [← Option.some.inj equal, found] at absent
    cases absent
  have spec := connectLink_spec link free
  unfold Pass.connect
  cases outcome : pass.heap.connectLink q link with
  | error error =>
      rw [outcome, questions] at spec
      exact ⟨links, spec⟩
  | ok pair =>
      obtain ⟨next, done⟩ := pair
      rw [outcome, questions] at spec
      obtain ⟨later, kept, iff⟩ := spec
      rw [questions] at iff
      refine ⟨⟨later.trans questions, fun x => ?_, ?_, ?_, ?_, ?_⟩, rfl, rfl⟩
      · rw [kept]
        exact answers x
      · intro other y there
        by_cases here : other = linkUuid
        · rw [here, AList.lookup_erase] at there
          cases there
        · rw [AList.lookup_erase_ne here] at there
          exact mapped other y there
      · intro y inY absent
        by_cases here : (question y).questUuid = linkUuid
        · have equal : y = link :=
            List.inj_on_of_nodup_map distinct (known inY) (known within) (here.trans same.symm)
          subst equal
          exact ⟨q, links, fun kind => (iff q y).mpr (Or.inr ⟨rfl, rfl, kind⟩)⟩
        · rw [AList.lookup_erase_ne here] at absent
          obtain ⟨x, other, connected⟩ := taken y inY absent
          exact ⟨x, other, fun kind => (iff x y).mpr (Or.inl (connected kind))⟩
      · intro x y connected
        rcases (iff x y).mp connected with before | ⟨rfl, rfl, kind⟩
        · obtain ⟨other, kind, absent, inside⟩ := sound x y before
          refine ⟨other, kind, ?_, inside⟩
          by_cases here : (question y).questUuid = linkUuid
          · rw [here]
            exact AList.lookup_erase _ _
          · rw [AList.lookup_erase_ne here]
            exact absent
        · exact ⟨links, kind, by rw [same]; exact AList.lookup_erase _ _, within⟩
      · intro x other y first second
        rcases (iff x y).mp first with before | ⟨rfl, rfl, -⟩
        · rcases (iff other y).mp second with also | ⟨-, rfl, -⟩
          · exact once x other y before also
          · obtain ⟨-, -, absent, -⟩ := sound x y before
            rw [same, found] at absent
            cases absent
        · rcases (iff other y).mp second with also | ⟨rfl, -, -⟩
          · obtain ⟨-, -, absent, -⟩ := sound other y also
            rw [same, found] at absent
            cases absent
          · rfl

/-- A link that makes the conversion fail. -/
def Typeless (question : Ref → Question) (quest : List Ref) : Prop :=
  ∃ q link, LinksTo question quest q link ∧ (question link).quesType = none

/-- The links of a question are of questions that were put in the map and taken out of it. -/
def Settled (question : Ref → Question) (quest seen : List Ref) (pass : Pass Ref) (q : Ref) :
    Prop :=
  ∀ link, LinksTo question quest q link →
    link ∈ seen ∧ pass.map.lookup (question link).questUuid = none

omit [DecidableEq Ref] in
theorem Settled.put {q other : Ref} (settled : Settled question quest seen pass other)
    (kept : Kept question quest seen pass)
    (fresh : ∀ other ∈ seen, (question other).questUuid ≠ (question q).questUuid) :
    Settled question quest (seen ++ [q]) (pass.put q) other := by
  intro link links
  obtain ⟨within, absent⟩ := settled link links
  refine ⟨List.mem_append_left _ within, ?_⟩
  rw [kept.put_map, AList.lookup_insert_ne (fresh link within)]
  exact absent

omit [DecidableEq Ref] in
theorem Settled.erase {next : Pass Ref} {linkUuid : String} {other : Ref}
    (settled : Settled question quest seen pass other)
    (erased : next.map = AList.erase linkUuid pass.map) :
    Settled question quest seen next other := by
  intro link links
  obtain ⟨within, absent⟩ := settled link links
  refine ⟨within, ?_⟩
  rw [erased]
  by_cases here : (question link).questUuid = linkUuid
  · rw [here]
    exact AList.lookup_erase _ _
  · rw [AList.lookup_erase_ne here]
    exact absent

omit [DecidableEq Ref] in
/-- A question whose link was found and taken out. -/
theorem settled_of_erase {next : Pass Ref} {linkUuid : String} {q link : Ref}
    (kept : Kept question quest seen pass) (known : seen ⊆ quest)
    (distinct : (quest.map fun q => (question q).questUuid).Nodup)
    (uuid : (question q).linkUuid = some linkUuid) (found : pass.map.lookup linkUuid = some link)
    (erased : next.map = AList.erase linkUuid pass.map) :
    Settled question quest seen next q := by
  intro other links
  have same : linkUuid = (question other).questUuid :=
    Option.some.inj (uuid.symm.trans links.uuid)
  obtain ⟨within, here⟩ := kept.mapped linkUuid link found
  have equal : link = other :=
    List.inj_on_of_nodup_map distinct (known within) links.linked (here.trans same)
  subst equal
  refine ⟨within, ?_⟩
  rw [erased, here]
  exact AList.lookup_erase _ _

/-- What the first loop keeps: a link of a question is settled, or left to the second loop. -/
structure Registered (question : Ref → Question) (quest seen : List Ref) (pass : Pass Ref) :
    Prop where
  kept : Kept question quest seen pass
  fixup : pass.fixup ⊆ seen
  pending : ∀ q ∈ seen, q ∈ pass.fixup ∨ Settled question quest seen pass q

omit [DecidableEq Ref] in
theorem Registered.put (kept : Kept question quest seen pass) {q : Ref}
    (fresh : ∀ other ∈ seen, (question other).questUuid ≠ (question q).questUuid)
    (fixup : pass.fixup ⊆ seen ++ [q])
    (pending : ∀ other ∈ seen, other ∈ pass.fixup ∨ Settled question quest seen pass other)
    (last : q ∈ pass.fixup ∨ Settled question quest seen pass q) :
    Registered question quest (seen ++ [q]) (pass.put q) := by
  refine ⟨kept.put fresh, fixup, fun other within => ?_⟩
  rcases List.mem_append.mp within with before | now
  · exact (pending other before).imp id fun settled => settled.put kept fresh
  · rw [List.mem_singleton.mp now]
    exact last.imp id fun settled => settled.put kept fresh

theorem Registered.step (registered : Registered question quest seen pass)
    (distinct : (quest.map fun q => (question q).questUuid).Nodup) (known : seen ⊆ quest) {q : Ref}
    (inside : q ∈ quest) (new : q ∉ seen) :
    match registerQuestion pass q with
    | .ok next => Registered question quest (seen ++ [q]) next
    | .error _ => Typeless question quest := by
  obtain ⟨kept, fixup, pending⟩ := registered
  have fresh : ∀ other ∈ seen, (question other).questUuid ≠ (question q).questUuid := by
    intro other within same
    exact new (List.inj_on_of_nodup_map distinct (known within) inside same ▸ within)
  have within : pass.fixup ⊆ seen ++ [q] := fun other before =>
    List.mem_append_left _ (fixup before)
  unfold registerQuestion
  rw [kept.questions]
  cases uuid : (question q).linkUuid with
  | none =>
      refine Registered.put kept fresh within pending (Or.inr fun link links => ?_)
      exact absurd (uuid.symm.trans links.uuid) nofun
  | some linkUuid =>
      cases found : pass.map.lookup linkUuid with
      | none =>
          simp only [found]
          have later : Kept question quest seen { pass with fixup := pass.fixup ++ [q] } :=
            ⟨kept.questions, kept.answers, kept.mapped, kept.taken, kept.sound, kept.once⟩
          have self : q ∈ pass.fixup ++ [q] := List.mem_append_right _ (List.mem_singleton_self _)
          refine Registered.put later fresh ?_ (fun other before => ?_) (Or.inl self)
          · exact List.append_subset.mpr ⟨within, List.subset_append_right _ _⟩
          · exact (pending other before).imp (List.mem_append_left _) id
      | some link =>
          have spec := kept.connect distinct inside known uuid found
          simp only [found]
          cases outcome : pass.connect q link linkUuid with
          | error error =>
              rw [outcome] at spec
              exact ⟨q, link, spec⟩
          | ok next =>
              rw [outcome] at spec
              obtain ⟨still, left, erased⟩ := spec
              have last : Settled question quest seen next q :=
                settled_of_erase kept known distinct uuid found erased
              rw [← left] at within pending
              refine Registered.put still fresh within (fun other before => ?_) (Or.inr last)
              exact (pending other before).imp id fun settled => settled.erase erased

theorem registered_foldlM (distinct : (quest.map fun q => (question q).questUuid).Nodup)
    {rest : List Ref} (all : seen ++ rest = quest)
    (registered : Registered question quest seen pass) :
    match rest.foldlM registerQuestion pass with
    | .ok next => Registered question quest quest next
    | .error _ => Typeless question quest := by
  induction rest generalizing seen pass with
  | nil =>
      rw [List.append_nil] at all
      exact all ▸ registered
  | cons q rest ih =>
      have known : seen ⊆ quest := all ▸ List.subset_append_left _ _
      have inside : q ∈ quest := all ▸ List.mem_append_right _ List.mem_cons_self
      have new : q ∉ seen := by
        have apart := List.Nodup.of_map _ distinct
        rw [← all] at apart
        exact fun before => (List.disjoint_of_nodup_append apart) before List.mem_cons_self
      have step := registered.step distinct known inside new
      rw [List.foldlM_cons]
      cases outcome : registerQuestion pass q with
      | error error =>
          rw [outcome] at step
          exact step
      | ok next =>
          rw [outcome] at step
          exact ih (by rw [List.append_assoc]; exact all) step

private theorem fixup_step (distinct : (quest.map fun q => (question q).questUuid).Nodup)
    (kept : Kept question quest quest pass) {q : Ref} (inside : q ∈ quest) :
    match fixupQuestion pass q with
    | .ok next => Kept question quest quest next ∧ Settled question quest quest next q ∧
        ∀ other, Settled question quest quest pass other → Settled question quest quest next other
    | .error _ => Typeless question quest := by
  unfold fixupQuestion
  rw [kept.questions]
  cases uuid : (question q).linkUuid with
  | none =>
      exact ⟨kept, fun link links => absurd (uuid.symm.trans links.uuid) nofun, fun _ => id⟩
  | some linkUuid =>
      cases found : pass.map.lookup linkUuid with
      | none =>
          simp only [found]
          refine ⟨kept, fun link links => ⟨links.linked, ?_⟩, fun _ => id⟩
          rw [← Option.some.inj (uuid.symm.trans links.uuid)]
          exact found
      | some link =>
          have spec := kept.connect distinct inside (List.Subset.refl quest) uuid found
          simp only [found]
          cases outcome : pass.connect q link linkUuid with
          | error error =>
              rw [outcome] at spec
              exact ⟨q, link, spec⟩
          | ok next =>
              rw [outcome] at spec
              obtain ⟨still, -, erased⟩ := spec
              exact ⟨still, settled_of_erase kept (List.Subset.refl quest) distinct uuid found
                erased, fun other settled => settled.erase erased⟩

private theorem fixup_foldlM (distinct : (quest.map fun q => (question q).questUuid).Nodup)
    {rest : List Ref} (inside : rest ⊆ quest) (kept : Kept question quest quest pass)
    (pending : ∀ q ∈ quest, q ∈ rest ∨ Settled question quest quest pass q) :
    match rest.foldlM fixupQuestion pass with
    | .ok next => Kept question quest quest next ∧
        ∀ q ∈ quest, Settled question quest quest next q
    | .error _ => Typeless question quest := by
  induction rest generalizing pass with
  | nil => exact ⟨kept, fun q within => (pending q within).resolve_left List.not_mem_nil⟩
  | cons q rest ih =>
      have step := fixup_step distinct kept (inside List.mem_cons_self)
      rw [List.foldlM_cons]
      cases outcome : fixupQuestion pass q with
      | error error =>
          rw [outcome] at step
          exact step
      | ok next =>
          rw [outcome] at step
          obtain ⟨still, now, later⟩ := step
          refine ih (List.subset_of_cons_subset inside) still fun other within => ?_
          rcases pending other within with left | settled
          · rcases List.mem_cons.mp left with rfl | left
            · exact Or.inr now
            · exact Or.inl left
          · exact Or.inr (later other settled)

/-! ## The answers -/

private theorem answerQuestion_links (map : HashMap String Ref) (heap : QuestHeap Ref)
    (ans : List Answer) :
    (ans.foldl (answerQuestion map) heap).linkQuestion = heap.linkQuestion ∧
      (ans.foldl (answerQuestion map) heap).linkResult = heap.linkResult := by
  induction ans generalizing heap with
  | nil => exact ⟨rfl, rfl⟩
  | cons a rest ih =>
      rw [List.foldl_cons, (ih _).1, (ih _).2, answerQuestion]
      cases a.questUuid.bind fun questUuid => map.lookup questUuid <;> exact ⟨rfl, rfl⟩

theorem connected_answers (map : HashMap String Ref) (heap : QuestHeap Ref) (ans : List Answer)
    (q link : Ref) :
    (ans.foldl (answerQuestion map) heap).Connected q link ↔ heap.Connected q link := by
  rw [QuestHeap.Connected, (answerQuestion_links map heap ans).1,
    (answerQuestion_links map heap ans).2, QuestHeap.Connected]

private theorem mem_answers {map : HashMap String Ref} {heap : QuestHeap Ref} {ans : List Answer}
    {a : Answer} {q : Ref} :
    a ∈ (ans.foldl (answerQuestion map) heap).answer q ↔ a ∈ heap.answer q ∨
      a ∈ ans ∧ (a.questUuid.bind fun questUuid => map.lookup questUuid) = some q := by
  induction ans generalizing heap with
  | nil => simp
  | cons first rest ih =>
      have step : a ∈ (answerQuestion map heap first).answer q ↔ a ∈ heap.answer q ∨
          a = first ∧ (a.questUuid.bind fun questUuid => map.lookup questUuid) = some q := by
        unfold answerQuestion
        cases found : first.questUuid.bind fun questUuid => map.lookup questUuid with
        | none => grind
        | some other =>
            by_cases here : q = other
            · subst here
              simp only [QuestHeap.setAnswer, update_self, List.mem_append,
                List.mem_singleton]
              grind
            · simp only [QuestHeap.setAnswer, update_of_ne here]
              grind
      rw [List.foldl_cons, ih, step, List.mem_cons]
      tauto

/-! ## The conversion -/

/-- What the conversion does with questions whose uuids differ. -/
structure Converted (question : Ref → Question) (quest : List Ref) (ans : List Answer)
    (heap : QuestHeap Ref) (out : List Ref) : Prop where
  top : ∀ q, q ∈ out ↔ q ∈ quest ∧ ∀ other, ¬ LinksTo question quest other q
  linked : ∀ q link, LinksTo question quest q link → HelpOrResult (question link) →
    ∃ other, LinksTo question quest other link ∧ heap.Connected other link
  sound : ∀ q link, heap.Connected q link → HelpOrResult (question link)
  once : ∀ q other link, heap.Connected q link → heap.Connected other link → q = other
  answers : ∀ q ∈ quest, ∀ a, a ∈ heap.answer q ↔
    a ∈ ans ∧ q ∈ out ∧ a.questUuid = some (question q).questUuid

theorem Kept.converted (kept : Kept question quest quest pass)
    (distinct : (quest.map fun q => (question q).questUuid).Nodup)
    (settled : ∀ q ∈ quest, Settled question quest quest pass q) (ans : List Answer) :
    Converted question quest ans (ans.foldl (answerQuestion pass.map) pass.heap)
      pass.map.values := by
  have top : ∀ q, pass.map.lookup (question q).questUuid = some q ↔
      q ∈ quest ∧ ∀ other, ¬ LinksTo question quest other q := by
    intro q
    constructor
    · intro found
      refine ⟨(kept.mapped _ q found).1, fun other links => ?_⟩
      rw [(settled other links.linking q links).2] at found
      cases found
    · rintro ⟨inside, free⟩
      cases found : pass.map.lookup (question q).questUuid with
      | none =>
          obtain ⟨other, links, -⟩ := kept.taken q inside found
          exact absurd links (free other)
      | some link =>
          obtain ⟨within, same⟩ := kept.mapped _ link found
          rw [List.inj_on_of_nodup_map distinct within inside same]
  have out : ∀ q, q ∈ pass.map.values ↔ pass.map.lookup (question q).questUuid = some q := by
    intro q
    rw [HashMap.mem_values_iff]
    constructor
    · rintro ⟨uuid, found⟩
      rw [(kept.mapped uuid q found).2]
      exact found
    · exact fun found => ⟨_, found⟩
  refine ⟨fun q => (out q).trans (top q), ?_, ?_, ?_, ?_⟩
  · intro q link links kind
    obtain ⟨other, also, connected⟩ :=
      kept.taken link links.linked (settled q links.linking link links).2
    exact ⟨other, also, (connected_answers _ _ _ _ _).mpr (connected kind)⟩
  · intro q link connected
    exact (kept.sound q link ((connected_answers _ _ _ _ _).mp connected)).2.1
  · intro q other link first second
    exact kept.once q other link ((connected_answers _ _ _ _ _).mp first)
      ((connected_answers _ _ _ _ _).mp second)
  · intro q inside a
    rw [mem_answers, kept.answers q, out q]
    constructor
    · rintro (none | ⟨given, found⟩)
      · exact absurd none List.not_mem_nil
      · obtain ⟨uuid, is, here⟩ := Option.bind_eq_some_iff.mp found
        obtain ⟨-, same⟩ := kept.mapped uuid q here
        exact ⟨given, by rw [same]; exact here, by rw [same]; exact is⟩
    · rintro ⟨given, found, is⟩
      exact Or.inr ⟨given, by rw [is]; exact found⟩

private theorem convertDTO_spec (distinct : (quest.map fun q => (question q).questUuid).Nodup)
    (ans : List Answer) :
    match convertDTO (.loaded question) quest ans with
    | .ok (heap, out) => Converted question quest ans heap out
    | .error _ => Typeless question quest := by
  have start : Registered question quest [] ⟨.loaded question, [], ∅⟩ := by
    refine ⟨⟨rfl, fun _ => rfl, ?_, nofun, ?_, ?_⟩, List.nil_subset _, nofun⟩
    · intro uuid link found
      rw [AList.lookup_empty] at found
      cases found
    · rintro q link (connected | connected) <;> cases connected
    · rintro q other link (connected | connected) <;> cases connected
  have first := registered_foldlM distinct (List.nil_append quest) start
  unfold convertDTO
  cases outcome : quest.foldlM registerQuestion ⟨.loaded question, [], ∅⟩ with
  | error error =>
      rw [outcome] at first
      exact first
  | ok pass =>
      rw [outcome] at first
      obtain ⟨kept, fixup, pending⟩ := first
      have second := fixup_foldlM distinct fixup kept pending
      cases later : pass.fixup.foldlM fixupQuestion pass with
      | error error =>
          rw [later] at second
          simp only [bind, Except.bind, later]
          exact second
      | ok next =>
          rw [later] at second
          simp only [bind, Except.bind, later]
          exact second.1.converted distinct second.2 ans

omit [DecidableEq Ref] in
/-- Without cycles, the questions that are linked to are reached from one that is not. -/
theorem linksTo_wellFounded
    (acyclic : ∀ q ∈ quest, ¬ Relation.TransGen (LinksTo question quest) q q) :
    WellFounded fun q link : { q // q ∈ quest } =>
      Relation.TransGen (LinksTo question quest) q.1 link.1 := by
  have finite : Finite { q // q ∈ quest } := List.finite_toSet quest
  have trans : IsTrans { q // q ∈ quest } fun q link =>
      Relation.TransGen (LinksTo question quest) q.1 link.1 := ⟨fun _ _ _ => .trans⟩
  have irrefl : Std.Irrefl fun q link : { q // q ∈ quest } =>
      Relation.TransGen (LinksTo question quest) q.1 link.1 := ⟨fun q => acyclic q.1 q.2⟩
  exact Finite.wellFounded_of_trans_of_irrefl _

omit [DecidableEq Ref] in
theorem Converted.reached {out : List Ref} (converted : Converted question quest ans heap out)
    (acyclic : ∀ q ∈ quest, ¬ Relation.TransGen (LinksTo question quest) q q)
    (once : LinkedOnce question quest ans) {q : Ref} (inside : q ∈ quest) :
    ∃ top ∈ out, Relation.ReflTransGen heap.Connected top q := by
  induction h : (⟨q, inside⟩ : { q // q ∈ quest }) using
    (linksTo_wellFounded acyclic).induction generalizing q with
  | _ start ih =>
    subst h
    by_cases free : ∀ other, ¬ LinksTo question quest other q
    · exact ⟨q, (converted.top q).mpr ⟨inside, free⟩, .refl⟩
    · push Not at free
      obtain ⟨linker, links⟩ := free
      obtain ⟨other, also, connected⟩ := converted.linked linker q links (once linker q links).1
      obtain ⟨top, given, path⟩ := ih ⟨other, also.linking⟩ (.single also) also.linking rfl
      exact ⟨top, given, path.tail connected⟩

/-- `convertDTO` loses nothing just when every question that another one links to is a help or
result question that no third one links to, and has no answers. -/
theorem losesNothing_iff_linkedOnce (question : Ref → Question) (quest : List Ref)
    (ans : List Answer) (distinct : (quest.map fun q => (question q).questUuid).Nodup)
    (acyclic : ∀ q ∈ quest, ¬ Relation.TransGen (LinksTo question quest) q q) :
    Right question quest ans ↔ LinkedOnce question quest ans := by
  have spec := convertDTO_spec distinct ans
  constructor
  · rintro ⟨heap, out, outcome, complete⟩
    rw [outcome] at spec
    intro q link links
    have below : link ∉ out := fun top => ((spec.top link).mp top).2 q links
    have kind : HelpOrResult (question link) := by
      obtain ⟨top, given, path⟩ := complete.reached link links.linked
      rcases path.cases_tail with rfl | ⟨last, -, connected⟩
      · exact absurd given below
      · exact spec.sound last link connected
    refine ⟨kind, fun other also => ?_, fun a given is => ?_⟩
    · exact spec.once other q link (complete.connected other link also kind)
        (complete.connected q link links kind)
    · have attached := complete.attached a given link links.linked is
      exact below ((spec.answers link links.linked a).mp attached).2.1
  · intro once
    cases outcome : convertDTO (.loaded question) quest ans with
    | error error =>
        rw [outcome] at spec
        obtain ⟨q, link, links, typeless⟩ := spec
        obtain ⟨quesType, typed, -⟩ := (once q link links).1
        rw [typeless] at typed
        cases typed
    | ok pair =>
        obtain ⟨heap, out⟩ := pair
        rw [outcome] at spec
        refine ⟨heap, out, outcome, fun q inside => spec.reached acyclic once inside, ?_, ?_⟩
        · intro q link links kind
          obtain ⟨other, also, connected⟩ := spec.linked q link links kind
          rw [← (once q link links).2.1 other also]
          exact connected
        · intro a given q inside is
          refine (spec.answers q inside a).mpr ⟨given, ?_, is⟩
          exact (spec.top q).mpr ⟨inside, fun other links => (once other q links).2.2 a given is⟩

/-- A help question, and two questions that link to it. -/
def shared : Fin 3 → Question
  | 0 => ⟨"help", none, some helpModal⟩
  | 1 => ⟨"first", some "help", some 0⟩
  | 2 => ⟨"second", some "help", some 0⟩

private theorem linksTo_shared {quest : List (Fin 3)} {q link : Fin 3}
    (links : LinksTo shared quest q link) : q ≠ 0 ∧ link = 0 := by
  have all : ∀ q link : Fin 3, (shared q).linkUuid = some (shared link).questUuid →
      q ≠ 0 ∧ link = 0 := by decide
  exact all q link links.uuid

private theorem acyclic_shared {quest : List (Fin 3)} :
    ∀ q ∈ quest, ¬ Relation.TransGen (LinksTo shared quest) q q := by
  intro q _ cycle
  obtain ⟨next, first, -⟩ := Relation.TransGen.head'_iff.mp cycle
  obtain ⟨before, -, last⟩ := Relation.TransGen.tail'_iff.mp cycle
  exact (linksTo_shared first).1 (linksTo_shared last).2

theorem losesNothing_iff_linkedOnce_single : Right shared [0, 1] [⟨7, some "first"⟩] := by
  refine (losesNothing_iff_linkedOnce shared [0, 1] [⟨7, some "first"⟩] (by decide)
    acyclic_shared).mpr fun q link links => ?_
  obtain ⟨-, rfl⟩ := linksTo_shared links
  refine ⟨⟨helpModal, rfl, Or.inl (by decide)⟩, fun other also => ?_, by decide⟩
  have one : ∀ x : Fin 3, x ∈ [(0 : Fin 3), 1] → x ≠ 0 → x = 1 := by decide
  rw [one other also.linking (linksTo_shared also).1, one q links.linking (linksTo_shared links).1]

/-- The second question that links to a help question is not connected to it. -/
theorem shared_loses : ([0, 1, 2].map fun q => (shared q).questUuid).Nodup ∧
    (∀ q ∈ [0, 1, 2], ¬ Relation.TransGen (LinksTo shared [0, 1, 2]) q q) ∧
      ¬ Right shared [0, 1, 2] [] := by
  refine ⟨by decide, acyclic_shared, ?_⟩
  rintro ⟨heap, out, outcome, complete⟩
  have alone : (convertDTO (.loaded shared) [0, 1, 2] []).toOption.map
      (fun result => (result.1.linkQuestion 2, result.1.linkResult 2)) = some (none, none) := by
    decide
  rw [outcome] at alone
  have links : LinksTo shared [0, 1, 2] 2 0 := ⟨by decide, by decide, rfl⟩
  obtain ⟨noHelp, noResult⟩ := Prod.mk.inj (Option.some.inj alone)
  rcases complete.connected 2 0 links ⟨helpModal, rfl, Or.inl (by decide)⟩ with here | here
  · exact absurd (noHelp.symm.trans here) nofun
  · exact absurd (noResult.symm.trans here) nofun

end Tvntd.QuestionSvc
