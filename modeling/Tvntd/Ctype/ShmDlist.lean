import Tvntd.Lib.Bytes
import Tvntd.Ctype.Dlist

/-! # Circular lists of offsets in shared memory

The inline functions of `include/ctype/shm-dlist.h` over the bytes of the
segment: a link is at an offset from the base, and its two fields hold offsets.
They order their loads and stores otherwise than the functions of
`include/ctype/dlist.h`. Where the links are placed apart the two stay in step,
also where an operation gets one link twice.
-/

namespace Tvntd

open Bytewise TwoWay

/-- `il_next` -/
def idlistNext (mem : Bytes) (base : Nat) (off : BitVec 32) : BitVec 32 :=
  BitVec.ofNat 32 (read mem (base + off.toNat) 4)

/-- `il_prev` -/
def idlistPrev (mem : Bytes) (base : Nat) (off : BitVec 32) : BitVec 32 :=
  BitVec.ofNat 32 (read mem (base + off.toNat + 4) 4)

def storeIlNext (mem : Bytes) (base : Nat) (off value : BitVec 32) : Bytes :=
  write mem (base + off.toNat) 4 value.toNat

def storeIlPrev (mem : Bytes) (base : Nat) (off value : BitVec 32) : Bytes :=
  write mem (base + off.toNat + 4) 4 value.toNat

/-- `idlist_init` -/
def idlistInit (mem : Bytes) (base : Nat) (ilistOff : BitVec 32) : Bytes :=
  storeIlNext (storeIlPrev mem base ilistOff ilistOff) base ilistOff ilistOff

/-- `idlist_add_front`. The address of the first element is loaded before any store. -/
def idlistAddFront (mem : Bytes) (base : Nat) (listOff elmOff : BitVec 32) : Bytes :=
  let next := idlistNext mem base listOff
  let mem := storeIlNext mem base elmOff (idlistNext mem base listOff)
  let mem := storeIlPrev mem base elmOff listOff
  let mem := storeIlPrev mem base next elmOff
  storeIlNext mem base listOff elmOff

/-- `idlist_add_back` -/
def idlistAddBack (mem : Bytes) (base : Nat) (listOff elmOff : BitVec 32) : Bytes :=
  idlistAddFront mem base (idlistPrev mem base listOff) elmOff

/-- `idlist_rm`. The link behind the element is stored to first. -/
def idlistRm (mem : Bytes) (base : Nat) (elmOff : BitVec 32) : Bytes :=
  let next := idlistNext mem base elmOff
  let prev := idlistPrev mem base elmOff
  let mem := storeIlPrev mem base next (idlistPrev mem base elmOff)
  storeIlNext mem base prev (idlistNext mem base elmOff)

/-- The operations that both kinds of lists have, on the same links. -/
inductive DlistOp (ρ : Type*)
  | init (list : ρ)
  | addFront (list elm : ρ)
  | addBack (list elm : ρ)
  | rm (elm : ρ)

variable {ρ : Type*}

/-- One operation on the lists of offsets. -/
def idlistStep (place : ρ → BitVec 32) (base : Nat) (mem : Bytes) : DlistOp ρ → Bytes
  | .init list => idlistInit mem base (place list)
  | .addFront list elm => idlistAddFront mem base (place list) (place elm)
  | .addBack list elm => idlistAddBack mem base (place list) (place elm)
  | .rm elm => idlistRm mem base (place elm)

def idlistRun (place : ρ → BitVec 32) (base : Nat) (mem : Bytes) (ops : List (DlistOp ρ)) : Bytes :=
  ops.foldl (idlistStep place base) mem

/-- Both fields of every link were set. -/
def AllSet (links : Dlinks ρ) : Prop := ∀ a, links.next a ≠ none ∧ links.prev a ≠ none

/-- No two links share a byte. -/
def PlacedApart (place : ρ → BitVec 32) : Prop :=
  ∀ a b, a ≠ b → Apart (place a).toNat 8 (place b).toNat 8

/-- Every field that was set on the one side holds the place of the same link on the other. -/
structure Corresponds (place : ρ → BitVec 32) (base : Nat) (mem : Bytes) (links : Dlinks ρ) :
    Prop where
  next : ∀ a b, links.next a = some b → idlistNext mem base (place a) = place b
  prev : ∀ a b, links.prev a = some b → idlistPrev mem base (place a) = place b

variable {place : ρ → BitVec 32} {base : Nat} {mem : Bytes} {links : Dlinks ρ}

private theorem idlistNext_storeIlNext_self (mem : Bytes) (base : Nat) (off value : BitVec 32) :
    idlistNext (storeIlNext mem base off value) base off = value := by
  rw [idlistNext, storeIlNext, read_write_of_lt mem value.isLt, BitVec.ofNat_toNat,
    BitVec.setWidth_eq]

private theorem idlistPrev_storeIlPrev_self (mem : Bytes) (base : Nat) (off value : BitVec 32) :
    idlistPrev (storeIlPrev mem base off value) base off = value := by
  rw [idlistPrev, storeIlPrev, read_write_of_lt mem value.isLt, BitVec.ofNat_toNat,
    BitVec.setWidth_eq]

variable [DecidableEq ρ]

/-- One operation on the lists of pointers. -/
def dlistStep (links : Dlinks ρ) : DlistOp ρ → Option (Dlinks ρ)
  | .init list => some (Dlinks.dlistInit links list)
  | .addFront list elm => Dlinks.dlistAddFront links list elm
  | .addBack list elm => Dlinks.dlistAddBack links list elm
  | .rm elm => Dlinks.dlistRm links elm

def dlistRun (links : Dlinks ρ) (ops : List (DlistOp ρ)) : Option (Dlinks ρ) :=
  ops.foldlM dlistStep links

/-- A field is stored to on both sides. -/
theorem Corresponds.setNext (same : Corresponds place base mem links) (apart : PlacedApart place)
    (a : ρ) {link : Option ρ} {value : BitVec 32} (linked : ∀ b, link = some b → value = place b) :
    Corresponds place base (storeIlNext mem base (place a) value) (links.setNext a link) := by
  constructor
  · intro c b set
    rw [Links.next_setNext] at set
    split at set
    · next here =>
        rw [here, idlistNext_storeIlNext_self]
        exact linked b set
    · next other =>
        have away := apart a c (Ne.symm other)
        rw [← same.next c b set, idlistNext, storeIlNext, read_write_of_apart, ← idlistNext]
        unfold Apart at away ⊢
        omega
  · intro c b set
    rw [← same.prev c b set, idlistPrev, storeIlNext, read_write_of_apart, ← idlistPrev]
    by_cases here : c = a
    · subst here
      unfold Apart
      omega
    · have away := apart a c (Ne.symm here)
      unfold Apart at away ⊢
      omega

theorem Corresponds.setPrev (same : Corresponds place base mem links) (apart : PlacedApart place)
    (a : ρ) {link : Option ρ} {value : BitVec 32} (linked : ∀ b, link = some b → value = place b) :
    Corresponds place base (storeIlPrev mem base (place a) value) (links.setPrev a link) := by
  constructor
  · intro c b set
    rw [← same.next c b set, idlistNext, storeIlPrev, read_write_of_apart, ← idlistNext]
    by_cases here : c = a
    · subst here
      unfold Apart
      omega
    · have away := apart a c (Ne.symm here)
      unfold Apart at away ⊢
      omega
  · intro c b set
    rw [Links.prev_setPrev] at set
    split at set
    · next here =>
        rw [here, idlistPrev_storeIlPrev_self]
        exact linked b set
    · next other =>
        have away := apart a c (Ne.symm other)
        rw [← same.prev c b set, idlistPrev, storeIlPrev, read_write_of_apart, ← idlistPrev]
        unfold Apart at away ⊢
        omega

theorem Corresponds.init (same : Corresponds place base mem links) (apart : PlacedApart place)
    (list : ρ) :
    Corresponds place base (idlistInit mem base (place list)) (Dlinks.dlistInit links list) := by
  have own : ∀ b, some list = some b → place list = place b :=
    fun b set => congrArg place (Option.some.inj set)
  exact (same.setPrev apart list own).setNext apart list own

/-- The first element is loaded before the stores on the one side and between them on the other:
none of them is to the field that is loaded. -/
theorem Corresponds.addFront (same : Corresponds place base mem links) (apart : PlacedApart place)
    (list elm : ρ) {after : Dlinks ρ} (added : Dlinks.dlistAddFront links list elm = some after) :
    Corresponds place base (idlistAddFront mem base (place list) (place elm)) after := by
  simp only [Dlinks.dlistAddFront, Links.next_setPrev, Links.next_setNext,
    Option.bind_eq_bind, Option.pure_def, Option.bind_eq_some_iff, Option.some.injEq] at added
  obtain ⟨first, loaded, rfl⟩ := added
  have linked : links.next list = some first := by
    split at loaded
    · exact loaded
    · exact loaded
  have own : ∀ (a b : ρ), some a = some b → place a = place b :=
    fun a b set => congrArg place (Option.some.inj set)
  unfold idlistAddFront
  simp only [same.next list first linked]
  refine (((same.setNext apart elm ?_).setPrev apart elm (own list)).setPrev apart first
    (own elm)).setNext apart list (own elm)
  intro b set
  rw [← same.next list first linked]
  exact same.next list b set

theorem Corresponds.addBack (same : Corresponds place base mem links) (apart : PlacedApart place)
    (list elm : ρ) {after : Dlinks ρ} (added : Dlinks.dlistAddBack links list elm = some after) :
    Corresponds place base (idlistAddBack mem base (place list) (place elm)) after := by
  simp only [Dlinks.dlistAddBack, Option.bind_eq_bind, Option.bind_eq_some_iff] at added
  obtain ⟨last, linked, added⟩ := added
  rw [idlistAddBack, same.prev list last linked]
  exact same.addFront apart last elm added

/-- The two stores are to different kinds of fields, so their order is the same to every link. -/
theorem Corresponds.rm (same : Corresponds place base mem links) (apart : PlacedApart place)
    (elm : ρ) {after : Dlinks ρ} (removed : Dlinks.dlistRm links elm = some after) :
    Corresponds place base (idlistRm mem base (place elm)) after := by
  simp only [Dlinks.dlistRm, Links.prev_setNext, Links.next_setNext, Option.bind_eq_bind,
    Option.pure_def, Option.bind_eq_some_iff, Option.some.injEq] at removed
  obtain ⟨before, linked, behind, loaded, rfl⟩ := removed
  have next : links.next elm = some behind := by
    split at loaded
    · exact loaded
    · exact loaded
  have stored := same.setPrev apart behind fun b set => same.prev elm b set
  have kept := stored.next elm behind next
  unfold idlistRm
  simp only [same.next elm behind next, same.prev elm before linked] at stored kept ⊢
  rw [kept]
  refine stored.setNext apart before ?_
  intro b set
  rw [next] at set
  exact congrArg place (Option.some.inj set)

/-- What one operation does to the two kinds of lists. -/
theorem Corresponds.step (same : Corresponds place base mem links) (apart : PlacedApart place)
    (op : DlistOp ρ) {after : Dlinks ρ} (stepped : dlistStep links op = some after) :
    Corresponds place base (idlistStep place base mem op) after := by
  cases op with
  | init list =>
      cases stepped
      exact same.init apart list
  | addFront list elm => exact same.addFront apart list elm stepped
  | addBack list elm => exact same.addBack apart list elm stepped
  | rm elm => exact same.rm apart elm stepped

theorem AllSet.setNext (set : AllSet links) (a b : ρ) : AllSet (links.setNext a (some b)) := by
  intro c
  rw [Links.next_setNext]
  split
  · exact ⟨Option.some_ne_none b, (set c).2⟩
  · exact set c

theorem AllSet.setPrev (set : AllSet links) (a b : ρ) : AllSet (links.setPrev a (some b)) := by
  intro c
  rw [Links.prev_setPrev]
  split
  · exact ⟨(set c).1, Option.some_ne_none b⟩
  · exact set c

theorem AllSet.addFront (set : AllSet links) (list elm : ρ) :
    ∃ after, Dlinks.dlistAddFront links list elm = some after ∧ AllSet after := by
  obtain ⟨first, linked⟩ := Option.ne_none_iff_exists'.mp (set list).1
  simp only [Dlinks.dlistAddFront, Links.next_setPrev, Links.next_setNext, linked, ite_self,
    Option.bind_eq_bind, Option.bind_some, Option.pure_def]
  exact ⟨_, rfl, (((set.setNext elm first).setPrev elm list).setPrev first elm).setNext list elm⟩

/-- Where every field was set, no operation follows one that was not, and all stay set. -/
theorem AllSet.step (set : AllSet links) (op : DlistOp ρ) :
    ∃ after, dlistStep links op = some after ∧ AllSet after := by
  cases op with
  | init list => exact ⟨_, rfl, (set.setPrev list list).setNext list list⟩
  | addFront list elm => exact set.addFront list elm
  | addBack list elm =>
      obtain ⟨last, linked⟩ := Option.ne_none_iff_exists'.mp (set list).2
      obtain ⟨after, added, still⟩ := set.addFront last elm
      exact ⟨after, (Dlinks.dlistAddBack_eq linked).trans added, still⟩
  | rm elm =>
      obtain ⟨before, prev⟩ := Option.ne_none_iff_exists'.mp (set elm).2
      obtain ⟨behind, next⟩ := Option.ne_none_iff_exists'.mp (set elm).1
      exact ⟨_, Dlinks.dlistRm_eq prev next, (set.setNext before behind).setPrev behind before⟩

theorem dlistRun_cons {op : DlistOp ρ} {next : Dlinks ρ} (stepped : dlistStep links op = some next)
    (rest : List (DlistOp ρ)) : dlistRun links (op :: rest) = dlistRun next rest := by
  rw [dlistRun, List.foldlM_cons, stepped]
  rfl

/-- **Lock step.** In a history of operations, and behind each of its parts, every field that the
pointer lists have set denotes the same link in the offset lists; and from fields that are all set
every history runs. -/
theorem idlist_follows_dlist (apart : PlacedApart place)
    (same : Corresponds place base mem links) :
    (∀ done rest final, dlistRun links (done ++ rest) = some final →
      ∃ after, dlistRun links done = some after ∧
        Corresponds place base (idlistRun place base mem done) after) ∧
    (AllSet links → ∀ ops, ∃ after, dlistRun links ops = some after ∧
      Corresponds place base (idlistRun place base mem ops) after) := by
  refine ⟨?_, ?_⟩
  · intro done
    induction done generalizing mem links with
    | nil => exact fun rest final _ => ⟨links, rfl, same⟩
    | cons op done ih =>
        intro rest final ran
        cases stepped : dlistStep links op with
        | none => simp [dlistRun, stepped] at ran
        | some next =>
            rw [List.cons_append, dlistRun_cons stepped] at ran
            rw [dlistRun_cons stepped]
            exact ih (same.step apart op stepped) rest final ran
  · intro set ops
    induction ops generalizing mem links with
    | nil => exact ⟨links, rfl, same⟩
    | cons op rest ih =>
        obtain ⟨next, stepped, still⟩ := set.step op
        rw [dlistRun_cons stepped]
        exact ih (same.step apart op stepped) still

/-- A head at offset 0 and an element at offset 8, of which nothing was set. -/
theorem idlist_follows_dlist_one :
    ∃ after, dlistRun (⟨fun _ => none, fun _ => none⟩ : Dlinks Bool)
        [.init false, .addFront false true, .rm true] = some after ∧
      Corresponds (fun link : Bool => if link then 8 else 0) 0
        (idlistRun (fun link : Bool => if link then 8 else 0) 0 (fun _ => 0)
          [.init false, .addFront false true, .rm true]) after := by
  have apart : PlacedApart fun link : Bool => if link then (8 : BitVec 32) else 0 := by
    unfold PlacedApart
    decide
  exact (idlist_follows_dlist apart ⟨by simp, by simp⟩).1 _ [] _ rfl

end Tvntd
