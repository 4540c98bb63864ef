import Mathlib.Data.List.Perm.Basic
import Mathlib.Logic.Function.Basic
import Tvntd.Lib.Machine

/-! # The asynchronous server

`ServerAsync` and `ServerAsyncBase` of `util/async-rpc.h` and
`common/util/async-rpc.cpp`, with the requests that `AsyncKeyServer` registers.
The completion queue delivers one event for each operation that is armed. What a
loop does with an event touches the request object of the event, whose only
event it is, and a new object, so it is one step, on whatever loop it happens.

Objects are numbered in the order they are created, and so are the calls of the
clients that complete an armed request. What is not in the source is the record
of the calls, how often each was handled and answered, and how often every
object was deleted.
-/

namespace Tvntd

open Function

/-- The classes that `SERVER_REQUEST_DECL` declares. -/
inductive ReqtClass where
  | dbCommandReqt
  | genKeyRequest
  | queryKeyRequest
  | signedMesgRequest
  | saveKPairRequest
  | listPulicKeysRequest
  | listAllAcctRequest
  deriving DecidableEq

/-- `ReqState` -/
inductive ReqState where
  | create
  | process
  | finish
  deriving DecidableEq

structure ServerAsyncBase where
  reqtClass : ReqtClass
  srqSt : ReqState
  /-- The call whose data `s_reqt` has. -/
  sReqt : Option Nat
  deriving DecidableEq

/-- What an object waits for. -/
inductive Armed where
  /-- `Request##MethodC`, for a call. -/
  | call
  /-- `Finish`, for the end of its answer. -/
  | answer
  deriving DecidableEq

structure ServerAsync where
  object : Nat → Option ServerAsyncBase
  created : Nat
  srqCq : List (Nat × Armed)
  calls : Nat
  handled : Nat → Nat
  answered : Nat → Nat
  deleted : Nat → Nat

namespace ServerAsync

def setObject (srv : ServerAsync) (tag : Nat) (reqt : ServerAsyncBase) : ServerAsync :=
  { srv with object := update srv.object tag (some reqt) }

def requestData (srv : ServerAsync) (tag : Nat) : ServerAsync :=
  { srv with srqCq := (tag, .call) :: srv.srqCq }

def processRequest (srv : ServerAsync) (tag : Nat) (reqt : ServerAsyncBase) : ServerAsync :=
  let srv := { srv with srqCq := (tag, .answer) :: srv.srqCq }
  match reqt.sReqt with
  | none => srv
  | some call =>
      { srv with
        handled := update srv.handled call (srv.handled call + 1)
        answered := update srv.answered call (srv.answered call + 1) }

def delete (srv : ServerAsync) (tag : Nat) : ServerAsync :=
  { srv with
    object := update srv.object tag none
    deleted := update srv.deleted tag (srv.deleted tag + 1) }

/-- `proceed` of a new object. -/
def proceedCreate (srv : ServerAsync) (tag : Nat) (reqt : ServerAsyncBase) : ServerAsync :=
  (srv.setObject tag { reqt with srqSt := .process }).requestData tag

/-- A new object, and its first `proceed`. -/
def newRequest (srv : ServerAsync) (reqtClass : ReqtClass) : ServerAsync :=
  let reqt : ServerAsyncBase := ⟨reqtClass, .create, none⟩
  ({ srv with created := srv.created + 1 }.setObject srv.created reqt).proceedCreate srv.created reqt

/-- Nothing can be done with an object that was deleted. -/
def proceed (srv : ServerAsync) (tag : Nat) : Option ServerAsync :=
  match srv.object tag with
  | none => none
  | some reqt =>
      match reqt.srqSt with
      | .create => some (srv.proceedCreate tag reqt)
      | .process =>
          let srv := (srv.newRequest reqt.reqtClass).setObject tag { reqt with srqSt := .finish }
          some (srv.processRequest tag reqt)
      | .finish => some (srv.delete tag)

/-- The classes that `register_requests` registers, in order. -/
def registered : List ReqtClass :=
  [.dbCommandReqt, .genKeyRequest, .queryKeyRequest, .signedMesgRequest, .saveKPairRequest,
    .listPulicKeysRequest, .listAllAcctRequest]

def registerRequests (srv : ServerAsync) : ServerAsync := registered.foldl newRequest srv

def empty : ServerAsync := ⟨fun _ => none, 0, [], 0, fun _ => 0, fun _ => 0, fun _ => 0⟩

/-- The server when so many loops have registered their requests. -/
def startServer : Nat → ServerAsync
  | 0 => empty
  | loops + 1 => (startServer loops).registerRequests

/-- A completion event. -/
structure Event where
  tag : Nat
  armed : Armed
  ok : Bool
  deriving DecidableEq

/-- A call that completes an armed request leaves its data there. -/
def receive (srv : ServerAsync) (event : Event) : ServerAsync :=
  match event.armed, srv.object event.tag with
  | .call, some reqt =>
      { srv.setObject event.tag { reqt with sReqt := some srv.calls } with calls := srv.calls + 1 }
  | _, _ => srv

/-- A turn of `run_server_loop`. An event that is not ok is logged. -/
def runServerLoop (srv : ServerAsync) (event : Event) : Option ServerAsync :=
  let srv := { srv with srqCq := srv.srqCq.erase (event.tag, event.armed) }
  if event.ok = true then (srv.receive event).proceed event.tag else some srv

def machine : Machine ServerAsync Event Unit :=
  ⟨fun srv event => (srv.runServerLoop event).map (·, ())⟩

/-- The event is that of an armed operation. -/
def Pending (srv : ServerAsync) (event : Event) : Prop := (event.tag, event.armed) ∈ srv.srqCq

/-- How many objects of a class are armed for a call. -/
def armedFor (srqCq : List (Nat × Armed)) (object : Nat → Option ServerAsyncBase)
    (reqtClass : ReqtClass) :
    Nat :=
  srqCq.countP fun entry => entry.2 = .call ∧ (object entry.1).map (·.reqtClass) = some reqtClass

/-- What a server promises, with so many objects armed for a call. -/
structure Serves (armed : ReqtClass → Nat) (srv : ServerAsync) : Prop where
  waiting : ∀ reqtClass, armedFor srv.srqCq srv.object reqtClass = armed reqtClass
  handled : ∀ call, srv.handled call = if call < srv.calls then 1 else 0
  answered : ∀ call, srv.answered call = if call < srv.calls then 1 else 0
  deleted : ∀ tag, srv.deleted tag = if tag < srv.created ∧ srv.object tag = none then 1 else 0
  completed : ∀ tag armed, (tag, armed) ∈ srv.srqCq → srv.object tag ≠ none
  live : ∀ tag, srv.object tag ≠ none → ∃ armed, (tag, armed) ∈ srv.srqCq

/-! ## One event -/

/-- What every event that is ok keeps. -/
structure Kept (armed : ReqtClass → Nat) (srv : ServerAsync) : Prop where
  serves : Serves armed srv
  tags : (srv.srqCq.map Prod.fst).Nodup
  fresh : ∀ tag, srv.created ≤ tag → srv.object tag = none
  waits : ∀ tag, (tag, .call) ∈ srv.srqCq → ∃ reqt,
    srv.object tag = some reqt ∧ reqt.srqSt = .process
  ends : ∀ tag, (tag, .answer) ∈ srv.srqCq → ∃ reqt,
    srv.object tag = some reqt ∧ reqt.srqSt = .finish

variable {armed : ReqtClass → Nat} {srv next : ServerAsync} {event : Event}

@[simp] theorem object_newRequest (srv : ServerAsync) (reqtClass : ReqtClass) :
    (srv.newRequest reqtClass).object =
      update srv.object srv.created (some ⟨reqtClass, .process, none⟩) :=
  update_idem ..

/-- Objects that the queue does not know do not count. -/
theorem armedFor_update {srqCq : List (Nat × Armed)} {tag : Nat} (away : tag ∉ srqCq.map Prod.fst)
    (object : Nat → Option ServerAsyncBase) (after : Option ServerAsyncBase)
    (reqtClass : ReqtClass) :
    armedFor srqCq (update object tag after) reqtClass =
      armedFor srqCq object reqtClass := by
  refine List.countP_congr fun entry inside => ?_
  have apart : entry.1 ≠ tag := fun same => away (same ▸ List.mem_map_of_mem inside)
  simp only [update_of_ne apart]

theorem Kept.erase (kept : Kept armed srv) (pending : srv.Pending event) :
    srv.srqCq.Perm ((event.tag, event.armed) :: srv.srqCq.erase (event.tag, event.armed)) ∧
      event.tag ∉ (srv.srqCq.erase (event.tag, event.armed)).map Prod.fst := by
  have perm := List.perm_cons_erase pending
  refine ⟨perm, ?_⟩
  have nodup := (perm.map Prod.fst).nodup_iff.mp kept.tags
  exact (List.nodup_cons.mp nodup).1

/-- The server behind the event of a call. -/
def behindCall (srv : ServerAsync) (tag : Nat) (reqt : ServerAsyncBase) : ServerAsync where
  object := update (update srv.object tag (some ⟨reqt.reqtClass, .finish, some srv.calls⟩))
    srv.created (some ⟨reqt.reqtClass, .process, none⟩)
  created := srv.created + 1
  srqCq := (tag, .answer) :: (srv.created, .call) :: srv.srqCq.erase (tag, .call)
  calls := srv.calls + 1
  handled := update srv.handled srv.calls (srv.handled srv.calls + 1)
  answered := update srv.answered srv.calls (srv.answered srv.calls + 1)
  deleted := srv.deleted

theorem runServerLoop_call {tag : Nat} {reqt : ServerAsyncBase} (here : srv.object tag = some reqt)
    (process : reqt.srqSt = .process) (old : tag ≠ srv.created) :
    srv.runServerLoop ⟨tag, .call, true⟩ = some (srv.behindCall tag reqt) := by
  unfold runServerLoop receive
  dsimp only
  rw [if_pos rfl, here]
  dsimp only
  unfold proceed
  simp only [setObject, update_self, process]
  unfold processRequest behindCall
  dsimp only [newRequest, proceedCreate, requestData, setObject]
  rw [update_idem, update_comm (Ne.symm old), update_idem]

/-- The server behind the event of an answer. -/
def behindAnswer (srv : ServerAsync) (tag : Nat) : ServerAsync :=
  { srv with srqCq := srv.srqCq.erase (tag, .answer) }.delete tag

private theorem runServerLoop_answer {tag : Nat} {reqt : ServerAsyncBase}
    (here : srv.object tag = some reqt)
    (finish : reqt.srqSt = .finish) :
    srv.runServerLoop ⟨tag, .answer, true⟩ = some (srv.behindAnswer tag) := by
  unfold runServerLoop receive proceed
  dsimp only
  rw [if_pos rfl, here]
  dsimp only
  rw [finish]
  rfl

private theorem Kept.lt_created (kept : Kept armed srv) {tag : Nat} {reqt : ServerAsyncBase}
    (here : srv.object tag = some reqt) : tag < srv.created := by
  by_cases old : tag < srv.created
  · exact old
  · rw [kept.fresh tag (Nat.le_of_not_lt old)] at here
    cases here

theorem Kept.old (kept : Kept armed srv) {tag : Nat} {armed : Armed}
    (inside : (tag, armed) ∈ srv.srqCq) :
    tag < srv.created := by
  cases here : srv.object tag with
  | none => exact (kept.serves.completed tag armed inside here).elim
  | some reqt => exact kept.lt_created here

/-- What is armed, without the object of the event. -/
theorem armedFor_erase {object : Nat → Option ServerAsyncBase} {srqCq : List (Nat × Armed)}
    {tag : Nat}
    {armed : Armed} (pending : (tag, armed) ∈ srqCq) (reqtClass : ReqtClass) :
    armedFor srqCq object reqtClass = armedFor (srqCq.erase (tag, armed)) object reqtClass +
      if armed = .call ∧ (object tag).map (·.reqtClass) = some reqtClass then 1 else 0 := by
  unfold armedFor
  rw [(List.perm_cons_erase pending).countP_eq, List.countP_cons]
  simp only [decide_eq_true_eq]

private theorem Kept.ne_created (kept : Kept armed srv) {tag : Nat} {armed : Armed}
    (inside : (tag, armed) ∈ srv.srqCq) : tag ≠ srv.created :=
  Nat.ne_of_lt (kept.old inside)

/-- The tag of the next object is in no entry of the queue. -/
theorem Kept.created_away (kept : Kept armed srv) : srv.created ∉ srv.srqCq.map Prod.fst := by
  intro known
  obtain ⟨⟨other, armed⟩, inside, same⟩ := List.mem_map.mp known
  exact kept.ne_created inside same

/-- The entries that an event leaves in the queue are those of other objects. -/
theorem Kept.ne_of_mem_erase (kept : Kept armed srv) (pending : srv.Pending event) {other : Nat}
    {at_ : Armed} (inside : (other, at_) ∈ srv.srqCq.erase (event.tag, event.armed)) :
    other ≠ event.tag := by
  intro same
  have known : other ∈ (srv.srqCq.erase (event.tag, event.armed)).map Prod.fst :=
    List.mem_map_of_mem inside
  exact (kept.erase pending).2 (same ▸ known)

private theorem Kept.nodup_erase (kept : Kept armed srv) (pending : srv.Pending event) :
    ((srv.srqCq.erase (event.tag, event.armed)).map Prod.fst).Nodup :=
  (List.nodup_cons.mp (((kept.erase pending).1.map Prod.fst).nodup_iff.mp kept.tags)).2

theorem mem_erase_of_ne {srqCq : List (Nat × Armed)} {tag other : Nat} {armed at_ : Armed}
    (apart : other ≠ tag) (inside : (other, at_) ∈ srqCq) :
    (other, at_) ∈ srqCq.erase (tag, armed) :=
  (List.mem_erase_of_ne fun equal => apart (Prod.mk.inj equal).1).mpr inside

/-- A call more, counted once. -/
theorem update_counter {counter : Nat → Nat} {calls : Nat}
    (before : ∀ call, counter call = if call < calls then 1 else 0) (call : Nat) :
    update counter calls (counter calls + 1) call = if call < calls + 1 then 1 else 0 := by
  by_cases same : call = calls
  · subst same
    rw [update_self, before, if_neg (Nat.lt_irrefl _), if_pos (Nat.lt_succ_self _)]
  · rw [update_of_ne same, before]
    exact if_congr (by omega) rfl rfl

private theorem object_behindCall_created (srv : ServerAsync) (tag : Nat) (reqt : ServerAsyncBase) :
    (srv.behindCall tag reqt).object srv.created = some ⟨reqt.reqtClass, .process, none⟩ :=
  update_self ..

theorem object_behindCall_self {tag : Nat} (old : tag ≠ srv.created) (reqt : ServerAsyncBase) :
    (srv.behindCall tag reqt).object tag = some ⟨reqt.reqtClass, .finish, some srv.calls⟩ :=
  (update_of_ne old ..).trans (update_self ..)

theorem object_behindCall_of_ne {tag other : Nat} (old : other ≠ srv.created) (apart : other ≠ tag)
    (reqt : ServerAsyncBase) : (srv.behindCall tag reqt).object other = srv.object other :=
  (update_of_ne old ..).trans (update_of_ne apart ..)

private theorem Kept.behindCall (kept : Kept armed srv) {tag : Nat} {reqt : ServerAsyncBase}
    (pending : (tag, .call) ∈ srv.srqCq) (here : srv.object tag = some reqt) :
    Kept armed (srv.behindCall tag reqt) := by
  have event : srv.Pending ⟨tag, .call, true⟩ := pending
  have away : tag ∉ (srv.srqCq.erase (tag, .call)).map Prod.fst := (kept.erase event).2
  have apart : tag ≠ srv.created := kept.ne_created pending
  have unknown : srv.created ∉ (srv.srqCq.erase (tag, .call)).map Prod.fst :=
    fun known => kept.created_away (List.map_subset _ List.erase_subset known)
  have others : ∀ {other armed}, (other, armed) ∈ srv.srqCq.erase (tag, .call) →
      (srv.behindCall tag reqt).object other = srv.object other := by
    intro other armed inside
    apply object_behindCall_of_ne
    · exact kept.ne_created (List.mem_of_mem_erase inside)
    · exact kept.ne_of_mem_erase event inside
  have created := object_behindCall_created srv tag reqt
  have ended := object_behindCall_self apart reqt
  refine ⟨⟨?_, update_counter kept.serves.handled, update_counter kept.serves.answered, ?_, ?_, ?_⟩, ?_, ?_, ?_, ?_⟩
  · intro reqtClass
    have before := kept.serves.waiting reqtClass
    rw [armedFor_erase pending, here] at before
    rw [← before]
    change armedFor ((tag, .answer) :: (srv.created, .call) :: srv.srqCq.erase (tag, .call)) _ _ = _
    unfold ServerAsync.behindCall
    dsimp only
    rw [armedFor, List.countP_cons, List.countP_cons, ← armedFor, armedFor_update unknown,
      armedFor_update away, update_self]
    simp
  · intro other
    refine (kept.serves.deleted other).trans (if_congr ?_ rfl rfl)
    by_cases new : other = srv.created
    · rw [new, created]
      exact iff_of_false (fun both => Nat.lt_irrefl _ both.1) nofun
    · by_cases mine : other = tag
      · rw [mine, ended, here]
        exact iff_of_false nofun nofun
      · rw [object_behindCall_of_ne new mine]
        refine and_congr_left fun _ => ?_
        change other < srv.created ↔ other < srv.created + 1
        omega
  · intro other armed inside
    rcases List.mem_cons.mp inside with head | inside
    · cases head
      rw [ended]
      nofun
    · rcases List.mem_cons.mp inside with head | inside
      · cases head
        rw [created]
        nofun
      · rw [others inside]
        exact kept.serves.completed other armed (List.mem_of_mem_erase inside)
  · intro other alive
    by_cases new : other = srv.created
    · exact ⟨.call, List.mem_cons_of_mem _ (new ▸ List.mem_cons_self)⟩
    · by_cases mine : other = tag
      · exact ⟨.answer, mine ▸ List.mem_cons_self⟩
      · rw [object_behindCall_of_ne new mine] at alive
        obtain ⟨armed, inside⟩ := kept.serves.live other alive
        refine ⟨armed, List.mem_cons_of_mem _ (List.mem_cons_of_mem _ ?_)⟩
        exact mem_erase_of_ne mine inside
  · change (tag :: srv.created :: (srv.srqCq.erase (tag, .call)).map Prod.fst).Nodup
    refine List.nodup_cons.mpr ⟨?_, List.nodup_cons.mpr ⟨unknown, kept.nodup_erase event⟩⟩
    intro known
    rcases List.mem_cons.mp known with same | known
    · exact apart same
    · exact away known
  · intro other later
    have above : srv.created + 1 ≤ other := later
    have old : tag < srv.created := kept.old pending
    rw [object_behindCall_of_ne (by omega) (by omega)]
    exact kept.fresh other (by omega)
  · intro other inside
    rcases List.mem_cons.mp inside with head | inside
    · cases head
    · rcases List.mem_cons.mp inside with head | inside
      · cases head
        exact ⟨_, created, rfl⟩
      · rw [others inside]
        exact kept.waits other (List.mem_of_mem_erase inside)
  · intro other inside
    rcases List.mem_cons.mp inside with head | inside
    · cases head
      exact ⟨_, ended, rfl⟩
    · rcases List.mem_cons.mp inside with head | inside
      · cases head
      · rw [others inside]
        exact kept.ends other (List.mem_of_mem_erase inside)

private theorem Kept.behindAnswer (kept : Kept armed srv) {tag : Nat} {reqt : ServerAsyncBase}
    (pending : (tag, .answer) ∈ srv.srqCq) (here : srv.object tag = some reqt) :
    Kept armed (srv.behindAnswer tag) := by
  have event : srv.Pending ⟨tag, .answer, true⟩ := pending
  have away : tag ∉ (srv.srqCq.erase (tag, .answer)).map Prod.fst := (kept.erase event).2
  have old : tag < srv.created := kept.old pending
  have gone : (srv.behindAnswer tag).object tag = none := update_self ..
  have others : ∀ {other}, other ≠ tag → (srv.behindAnswer tag).object other = srv.object other :=
    fun apart => update_of_ne apart ..
  have left : ∀ {other at_}, (other, at_) ∈ srv.srqCq.erase (tag, .answer) → other ≠ tag :=
    fun inside => kept.ne_of_mem_erase event inside
  refine ⟨⟨?_, kept.serves.handled, kept.serves.answered, ?_, ?_, ?_⟩, ?_, ?_, ?_, ?_⟩
  · intro reqtClass
    have before := kept.serves.waiting reqtClass
    rw [armedFor_erase pending, if_neg (fun both => nomatch both.1), Nat.add_zero] at before
    rw [← before]
    exact armedFor_update away ..
  · intro other
    by_cases mine : other = tag
    · subst mine
      have before := kept.serves.deleted other
      rw [here, if_neg (fun both => nomatch both.2)] at before
      rw [gone, if_pos ⟨old, rfl⟩]
      change update srv.deleted other (srv.deleted other + 1) other = 1
      rw [update_self, before]
    · rw [others mine]
      exact (update_of_ne mine ..).trans (kept.serves.deleted other)
  · intro other at_ inside
    rw [others (left inside)]
    exact kept.serves.completed other at_ (List.mem_of_mem_erase inside)
  · intro other alive
    have mine : other ≠ tag := by
      rintro rfl
      exact alive gone
    rw [others mine] at alive
    obtain ⟨at_, inside⟩ := kept.serves.live other alive
    exact ⟨at_, mem_erase_of_ne mine inside⟩
  · exact kept.nodup_erase event
  · intro other later
    have above : srv.created ≤ other := later
    have mine : other ≠ tag := by omega
    exact (others mine).trans (kept.fresh other later)
  · intro other inside
    rw [others (left inside)]
    exact kept.waits other (List.mem_of_mem_erase inside)
  · intro other inside
    rw [others (left inside)]
    exact kept.ends other (List.mem_of_mem_erase inside)

/-- **An event that is ok keeps everything.** -/
theorem Kept.step (kept : Kept armed srv) (pending : srv.Pending event) (ok : event.ok = true) :
    ∃ next, srv.runServerLoop event = some next ∧ Kept armed next := by
  obtain ⟨tag, at_, ok'⟩ := event
  obtain rfl : ok' = true := ok
  cases at_ with
  | call =>
      obtain ⟨reqt, here, process⟩ := kept.waits tag pending
      exact ⟨_, runServerLoop_call here process (kept.ne_created pending),
        kept.behindCall pending here⟩
  | answer =>
      obtain ⟨reqt, here, finish⟩ := kept.ends tag pending
      exact ⟨_, runServerLoop_answer here finish, kept.behindAnswer pending here⟩

/-- **An event that is not ok leaves its object behind.** -/
theorem Kept.leaks (kept : Kept armed srv) (pending : srv.Pending event)
    (failed : ¬ event.ok = true)
    (stepped : srv.runServerLoop event = some next) : ¬ Serves armed next := by
  unfold runServerLoop at stepped
  dsimp only at stepped
  rw [if_neg failed, Option.some.injEq] at stepped
  subst stepped
  intro serves
  have alive := kept.serves.completed event.tag event.armed pending
  obtain ⟨at_, inside⟩ := serves.live event.tag alive
  exact (kept.erase pending).2 (List.mem_map_of_mem inside)

/-! ## The start -/

private theorem Kept.newRequest (kept : Kept armed srv) (reqtClass : ReqtClass) :
    Kept (update armed reqtClass (armed reqtClass + 1)) (srv.newRequest reqtClass) := by
  have object := object_newRequest srv reqtClass
  have created : (srv.newRequest reqtClass).object srv.created =
      some ⟨reqtClass, .process, none⟩ := by
    rw [object, update_self]
  have others : ∀ {other}, other ≠ srv.created →
      (srv.newRequest reqtClass).object other = srv.object other := by
    intro other apart
    rw [object, update_of_ne apart]
  refine ⟨⟨?_, kept.serves.handled, kept.serves.answered, ?_, ?_, ?_⟩, ?_, ?_, ?_, ?_⟩
  · intro other
    rw [object]
    change armedFor ((srv.created, .call) :: srv.srqCq) _ _ = _
    rw [armedFor, List.countP_cons, ← armedFor, armedFor_update kept.created_away, kept.serves.waiting,
      update_self]
    by_cases same : other = reqtClass
    · subst same
      rw [update_self]
      simp
    · rw [update_of_ne same]
      simp [Ne.symm same]
  · intro other
    refine (kept.serves.deleted other).trans (if_congr ?_ rfl rfl)
    by_cases new : other = srv.created
    · rw [new, created]
      exact iff_of_false (fun both => Nat.lt_irrefl _ both.1) nofun
    · rw [others new]
      refine and_congr_left fun _ => ?_
      change other < srv.created ↔ other < srv.created + 1
      omega
  · intro other at_ inside
    rcases List.mem_cons.mp inside with head | inside
    · cases head
      rw [created]
      nofun
    · rw [others (kept.ne_created inside)]
      exact kept.serves.completed other at_ inside
  · intro other alive
    by_cases new : other = srv.created
    · exact ⟨.call, new ▸ List.mem_cons_self⟩
    · rw [others new] at alive
      obtain ⟨at_, inside⟩ := kept.serves.live other alive
      exact ⟨at_, List.mem_cons_of_mem _ inside⟩
  · exact List.nodup_cons.mpr ⟨kept.created_away, kept.tags⟩
  · intro other later
    have above : srv.created + 1 ≤ other := later
    rw [others (by omega)]
    exact kept.fresh other (by omega)
  · intro other inside
    rcases List.mem_cons.mp inside with head | inside
    · cases head
      exact ⟨_, created, rfl⟩
    · rw [others (kept.ne_created inside)]
      exact kept.waits other inside
  · intro other inside
    rcases List.mem_cons.mp inside with head | inside
    · cases head
    · rw [others (kept.ne_created inside)]
      exact kept.ends other inside

theorem Kept.registers : ∀ (classes : List ReqtClass) {armed : ReqtClass → Nat} {srv : ServerAsync},
    Kept armed srv → Kept (fun reqtClass => armed reqtClass + classes.count reqtClass)
      (classes.foldl ServerAsync.newRequest srv)
  | [], _, _, kept => kept
  | reqtClass :: rest, armed, srv, kept => by
      have later := Kept.registers rest (kept.newRequest reqtClass)
      have same : (fun other => armed other + (reqtClass :: rest).count other) = fun other =>
          update armed reqtClass (armed reqtClass + 1) other + rest.count other := by
        funext other
        rw [List.count_cons]
        by_cases equal : other = reqtClass
        · subst equal
          rw [update_self, beq_self_eq_true, if_pos rfl]
          omega
        · rw [update_of_ne equal, if_neg (by simpa using Ne.symm equal), Nat.add_zero]
      rw [same]
      exact later

private theorem kept_startServer (loops : Nat) : Kept (fun _ => loops) (startServer loops) := by
  induction loops with
  | zero =>
      refine ⟨⟨fun _ => rfl, fun _ => rfl, fun _ => rfl, ?_, ?_, ?_⟩, List.nodup_nil, fun _ _ => rfl, ?_, ?_⟩
      · exact fun tag => (if_neg fun both => Nat.not_lt_zero tag both.1).symm
      · exact fun _ _ inside => (List.not_mem_nil inside).elim
      · exact fun _ alive => (alive rfl).elim
      · exact fun _ inside => (List.not_mem_nil inside).elim
      · exact fun _ inside => (List.not_mem_nil inside).elim
  | succ loops ih =>
      have each : ∀ reqtClass, registered.count reqtClass = 1 := by
        intro reqtClass
        cases reqtClass with
        | _ => rfl
      have later := ih.registers registered
      simp only [each] at later
      exact later

theorem step_machine (srv : ServerAsync) (event : Event) (output : Unit) :
    machine.step srv event = some (next, output) ↔ srv.runServerLoop event = some next := by
  change (srv.runServerLoop event).map (·, ()) = _ ↔ _
  simp

/-- Events of armed operations that are ok are taken to the last one. -/
theorem Kept.all_ok {events : List Event} : ∀ {srv : ServerAsync}, Kept armed srv →
    machine.Meets Pending srv events → machine.Meets (fun _ event => event.ok = true) srv events →
      ∀ event ∈ events, event.ok = true := by
  induction events with
  | nil => exact fun _ _ _ _ inside => (List.not_mem_nil inside).elim
  | cons first rest ih =>
      intro srv kept pending ok event inside
      rcases List.mem_cons.mp inside with rfl | inside
      · exact ok.1
      · obtain ⟨next, stepped, still⟩ := kept.step pending.1 ok.1
        have taken := (step_machine srv first ()).mpr stepped
        exact ih still (pending.tail taken) (ok.tail taken) event inside

/-- **A server keeps its promise as long as its completion events are ok, and no longer.** -/
theorem always_serves_iff_ok (loops : Nat) {events : List Event}
    (pending : machine.Meets Pending (startServer loops) events) :
    machine.Always (Serves fun _ => loops) (startServer loops) events ↔
      ∀ event ∈ events, event.ok = true := by
  have kept := kept_startServer loops
  have exact_ : machine.Always (Serves fun _ => loops) (startServer loops) events ↔
      machine.Meets (fun _ event => event.ok = true) (startServer loops) events := by
    refine Machine.always_iff_meets (fun _ kept => Kept.serves kept) ?_ ?_ kept pending
    · intro srv event kept pending ok
      obtain ⟨next, stepped, still⟩ := Kept.step kept pending ok
      exact ⟨next, (), (step_machine srv event ()).mpr stepped, still⟩
    · intro srv event next output kept pending failed stepped
      exact kept.leaks pending failed ((step_machine srv event output).mp stepped)
  rw [exact_]
  exact ⟨kept.all_ok pending, fun all => Machine.meets_of_labels all _⟩

section Events

/-- A call of each of two classes, and the end of the first answer. -/
def served : List Event := [⟨1, .call, true⟩, ⟨5, .call, true⟩, ⟨1, .answer, true⟩, ⟨35, .call, true⟩]

instance (srv : ServerAsync) : DecidablePred srv.Pending := fun _ =>
  inferInstanceAs (Decidable (_ ∈ _))

/-- The five loops of `start_server`. -/
theorem always_serves_iff_ok_served :
    machine.Always (Serves fun _ => 5) (startServer 5) served := by
  have pending : machine.Meets Pending (startServer 5) served := by decide +kernel
  exact (always_serves_iff_ok 5 pending).mpr (by decide)

/-- A client goes away before the end of its answer. -/
def abandoned : List Event := [⟨1, .call, true⟩, ⟨1, .answer, false⟩]

private theorem abandoned_runs : (machine.run (startServer 5) abandoned).isSome = true := by
  decide +kernel

/-- Its object stays, and nothing is armed for it any more. -/
theorem abandoned_not_always_serves : machine.Meets Pending (startServer 5) abandoned ∧
    ¬ machine.Always (Serves fun _ => 5) (startServer 5) abandoned := by
  refine ⟨by decide +kernel, fun always => ?_⟩
  obtain ⟨final, outputs, ran, serves⟩ := always.run
  have same : final = machine.final (startServer 5) abandoned abandoned_runs := by
    simp only [Machine.final, ran, Option.get_some]
  have alive : (machine.final (startServer 5) abandoned abandoned_runs).object 1 ≠ none := by
    decide +kernel
  have unarmed : 1 ∉ (machine.final (startServer 5) abandoned abandoned_runs).srqCq.map Prod.fst := by
    decide +kernel
  rw [← same] at alive unarmed
  obtain ⟨armed, inside⟩ := serves.live 1 alive
  exact unarmed (List.mem_map_of_mem inside)

end Events

end ServerAsync

end Tvntd
