import Tvntd.Front.AuthorShelf
import Tvntd.Lib.Chained

/-! # Lists and dictionaries of a shelf

What an article is taken out of a list by does not tell it from others of its
date. The lists stay those of the dictionaries exactly if each article that goes
is the first one of its date, and each one that comes has a uuid of its own.
-/

namespace Tvntd.AuthorShelf

open SortedArray ArticleSort Function

variable {all : Articles} {now : Fields} {shelf next : Shelf} {uuid : String}
  {article : ArticleRef}

/-! ## One list -/

section Lists

variable {belongs : ArticleRef → Prop} {byUuid : Properties String ArticleRef}
  {list after : List ArticleRef}

/-- Every article is under its own uuid. -/
def Keyed (all : Articles) (byUuid : Properties String ArticleRef) : Prop :=
  ∀ uuid article, Properties.get byUuid uuid = some article → all.articleUuid article = uuid

theorem Keyed.set (keyed : Keyed all byUuid) (article : ArticleRef) :
    Keyed all (Properties.set byUuid (all.articleUuid article) article) := by
  intro uuid other found
  rw [Properties.get_set] at found
  split at found
  case isTrue same =>
    cases found
    exact same.symm
  case isFalse => exact keyed uuid other found

theorem Keyed.delete (keyed : Keyed all byUuid) (gone : String) :
    Keyed all (Properties.delete byUuid gone) := by
  intro uuid other found
  rw [Properties.get_delete] at found
  split at found
  case isTrue => cases found
  case isFalse => exact keyed uuid other found

private theorem Lists.mem_of_get (lists : Lists all belongs byUuid list) (keyed : Keyed all byUuid)
    (found : Properties.get byUuid uuid = some article) (mine : belongs article) :
    article ∈ list :=
  (lists.mem article).mpr ⟨mine, keyed uuid article found ▸ found⟩

theorem Lists.add (lists : Lists all belongs byUuid list) (mine : belongs article)
    (free : Properties.get byUuid (all.articleUuid article) = none)
    (perm : after.Perm (article :: list)) :
    Lists all belongs (Properties.set byUuid (all.articleUuid article) article) after where
  nodup := by
    refine perm.nodup_iff.mpr (List.nodup_cons.mpr ⟨fun inside => ?_, lists.nodup⟩)
    have found := ((lists.mem article).mp inside).2
    cases free.symm.trans found
  mem := by
    intro other
    rw [perm.mem_iff, List.mem_cons, lists.mem, Properties.get_set]
    constructor
    · rintro (rfl | ⟨own, found⟩)
      · exact ⟨mine, if_pos rfl⟩
      · have apart : all.articleUuid other ≠ all.articleUuid article := by
          intro same
          rw [same, free] at found
          cases found
        exact ⟨own, (if_neg apart).trans found⟩
    · rintro ⟨own, found⟩
      split at found
      case isTrue => exact .inl (Option.some.inj found).symm
      case isFalse => exact .inr ⟨own, found⟩

/-- An article that belongs elsewhere. -/
theorem Lists.set_other (lists : Lists all belongs byUuid list) (other : ¬ belongs article)
    (free : Properties.get byUuid (all.articleUuid article) = none) :
    Lists all belongs (Properties.set byUuid (all.articleUuid article) article) list where
  nodup := lists.nodup
  mem := by
    intro inside
    rw [lists.mem, Properties.get_set]
    refine and_congr_right fun own => ?_
    by_cases same : all.articleUuid inside = all.articleUuid article
    · rw [same, free, if_pos rfl]
      refine iff_of_false nofun fun held => ?_
      cases held
      exact other own
    · rw [if_neg same]

/-- An article that is replaced must not be in the list any more. -/
theorem Lists.gone {old : ArticleRef}
    (lists : Lists all belongs (Properties.set byUuid (all.articleUuid article) article) after)
    (same : all.articleUuid old = all.articleUuid article) (apart : old ≠ article) :
    old ∉ after := by
  intro inside
  have found := ((lists.mem old).mp inside).2
  rw [same, Properties.get_set_self, Option.some.injEq] at found
  exact apart found.symm

theorem removeArray_eq_erase (first : list.find? (sameDate now article) = some article) :
    removeArray now list article = list.erase article := List.eraseP_eq_erase_of_find? first

/-- Where another article has the date, or no date is there, the article itself stays. -/
theorem mem_removeArray (inside : article ∈ list)
    (first : list.find? (sameDate now article) ≠ some article) :
    article ∈ removeArray now list article := by
  rw [removeArray]
  induction list with
  | nil => cases inside
  | cons head rest ih =>
      rw [List.find?_cons] at first
      split at first
      case h_1 hit =>
        rw [List.eraseP_cons_of_pos hit]
        have apart : article ≠ head := fun same => first (congrArg some same.symm)
        exact (List.mem_cons.mp inside).resolve_left apart
      case h_2 miss =>
        rw [List.eraseP_cons_of_neg (by simp [miss])]
        rcases List.mem_cons.mp inside with rfl | later
        · exact List.mem_cons_self
        · exact List.mem_cons_of_mem _ (ih later first)

/-- The list loses the articles of the uuid. -/
theorem Lists.removeArray_eq_filter (lists : Lists all belongs byUuid list)
    (keyed : Keyed all byUuid) (found : Properties.get byUuid uuid = some article)
    (first : list.find? (sameDate now article) = some article) :
    removeArray now list article = list.filter fun other => all.articleUuid other ≠ uuid := by
  rw [removeArray_eq_erase first, lists.nodup.erase_eq_filter]
  refine List.filter_congr fun other inside => ?_
  have there := ((lists.mem other).mp inside).2
  have same : other = article ↔ all.articleUuid other = uuid := by
    constructor
    · rintro rfl
      exact keyed uuid other found
    · intro same
      rw [same, found, Option.some.injEq] at there
      exact there.symm
  rw [Bool.eq_iff_iff, bne_iff_ne, decide_eq_true_eq, ne_eq, same]

theorem Lists.filter (lists : Lists all belongs byUuid list) (uuid : String) :
    Lists all belongs (Properties.delete byUuid uuid)
      (list.filter fun other => all.articleUuid other ≠ uuid) where
  nodup := lists.nodup.filter _
  mem := by
    intro other
    rw [List.mem_filter, decide_eq_true_eq, lists.mem, Properties.get_delete]
    by_cases same : all.articleUuid other = uuid
    · rw [if_pos same]
      exact iff_of_false (fun both => both.2 same) nofun
    · rw [if_neg same, and_iff_left same]

/-- A list without articles of the uuid. -/
theorem Lists.filter_eq_self (lists : Lists all belongs byUuid list)
    (none : ∀ other, belongs other → Properties.get byUuid uuid ≠ some other) :
    (list.filter fun other => all.articleUuid other ≠ uuid) = list := by
  refine List.filter_eq_self.mpr fun other inside => decide_eq_true fun same => ?_
  obtain ⟨own, found⟩ := (lists.mem other).mp inside
  exact none other own (same ▸ found)

/-- An article is taken out of its list exactly if it is the first one of its date. -/
theorem Lists.remove_iff (lists : Lists all belongs byUuid list) (keyed : Keyed all byUuid)
    (found : Properties.get byUuid uuid = some article) (mine : belongs article) :
    Lists all belongs (Properties.delete byUuid uuid) (removeArray now list article) ↔
      list.find? (sameDate now article) = some article := by
  constructor
  · intro removed
    by_contra first
    have still := mem_removeArray (lists.mem_of_get keyed found mine) first
    have gone := ((removed.mem article).mp still).2
    rw [keyed uuid article found, Properties.get_delete, if_pos rfl] at gone
    cases gone
  · intro first
    rw [lists.removeArray_eq_filter keyed found first]
    exact lists.filter uuid

end Lists

/-! ## Removals -/

structure Kept (all : Articles) (shelf : Shelf) : Prop where
  articles : Keyed all shelf.articles
  savedArts : Keyed all shelf.savedArts

/-- What the lists of the published articles are to have. -/
def Published (all : Articles) (shelf : Shelf) : Prop :=
  ∀ kind, Lists all (fun article => all.kind article = kind) shelf.articles (shelf.sorted kind)

private theorem removeSaved_articles (now : Fields) (shelf : Shelf) (uuid : String) :
    (shelf.removeSaved now uuid).articles = shelf.articles ∧
      (shelf.removeSaved now uuid).sorted = shelf.sorted := by
  unfold Shelf.removeSaved
  split
  · exact ⟨rfl, rfl⟩
  · exact ⟨rfl, rfl⟩

theorem removePublished_savedArts (all : Articles) (now : Fields) (shelf : Shelf) (uuid : String) :
    (shelf.removePublished all now uuid).savedArts = shelf.savedArts ∧
      (shelf.removePublished all now uuid).sortedSavedArts = shelf.sortedSavedArts := by
  unfold Shelf.removePublished
  split
  · exact ⟨rfl, rfl⟩
  · exact ⟨rfl, rfl⟩

private theorem removePublished_articles (shelf : Shelf) (uuid : String) :
    (shelf.removePublished all now uuid).articles = Properties.delete shelf.articles uuid := by
  unfold Shelf.removePublished
  split
  case h_1 absent => exact (Properties.delete_eq_self absent).symm
  case h_2 => rfl

private theorem removeSaved_savedArts (shelf : Shelf) (uuid : String) :
    (shelf.removeSaved now uuid).savedArts = Properties.delete shelf.savedArts uuid := by
  unfold Shelf.removeSaved
  split
  case h_1 absent => exact (Properties.delete_eq_self absent).symm
  case h_2 => rfl

/-- The dictionaries without the uuid. -/
theorem removeArticle_dictionaries (all : Articles) (now : Fields) (shelf : Shelf) (uuid : String) :
    (shelf.removeArticle all now uuid).articles = Properties.delete shelf.articles uuid ∧
      (shelf.removeArticle all now uuid).savedArts = Properties.delete shelf.savedArts uuid := by
  unfold Shelf.removeArticle
  rw [(removeSaved_articles now _ uuid).1, removePublished_articles, removeSaved_savedArts,
    (removePublished_savedArts all now shelf uuid).1]
  exact ⟨rfl, rfl⟩

private theorem removePublished_sorted (found : Properties.get shelf.articles uuid = some article)
    (kind : Kind) : (shelf.removePublished all now uuid).sorted kind =
      if kind = all.kind article then removeArray now (shelf.sorted kind) article
      else shelf.sorted kind := by
  simp only [Shelf.removePublished, found, update_apply]
  split
  case isTrue here => rw [here]
  case isFalse => rfl

private theorem removeSaved_sorted (found : Properties.get shelf.savedArts uuid = some article) :
    (shelf.removeSaved now uuid).sortedSavedArts =
      removeArray now shelf.sortedSavedArts article := by
  simp only [Shelf.removeSaved, found]

/-- The lists of the published articles lose those of the uuid, or do not fit any more. -/
theorem Published.remove (published : Published all shelf) (keyed : Keyed all shelf.articles)
    (first : ∀ article, Properties.get shelf.articles uuid = some article →
      (shelf.sorted (all.kind article)).find? (sameDate now article) = some article)
    (kind : Kind) : (shelf.removePublished all now uuid).sorted kind =
      (shelf.sorted kind).filter fun other => all.articleUuid other ≠ uuid := by
  cases found : Properties.get shelf.articles uuid with
  | none =>
      rw [(published kind).filter_eq_self fun other _ there => nomatch found.symm.trans there]
      simp only [Shelf.removePublished, found]
  | some article =>
      rw [removePublished_sorted found]
      split
      case isTrue here =>
        subst here
        exact (published _).removeArray_eq_filter keyed found (first article found)
      case isFalse apart =>
        refine ((published kind).filter_eq_self fun other mine there => apart ?_).symm
        cases found.symm.trans there
        exact mine.symm

theorem Published.remove_iff (published : Published all shelf) (keyed : Keyed all shelf.articles) :
    Published all (shelf.removePublished all now uuid) ↔
      ∀ article, Properties.get shelf.articles uuid = some article →
        (shelf.sorted (all.kind article)).find? (sameDate now article) = some article := by
  constructor
  · intro removed article found
    have own := removed (all.kind article)
    rw [removePublished_articles, removePublished_sorted found, if_pos rfl] at own
    exact ((published _).remove_iff keyed found rfl).mp own
  · intro first kind
    rw [removePublished_articles, published.remove keyed first]
    exact (published kind).filter uuid

theorem Lists.removeSaved (lists : Lists all (fun _ => True) shelf.savedArts shelf.sortedSavedArts)
    (keyed : Keyed all shelf.savedArts)
    (first : ∀ article, Properties.get shelf.savedArts uuid = some article →
      shelf.sortedSavedArts.find? (sameDate now article) = some article) :
    (shelf.removeSaved now uuid).sortedSavedArts =
      shelf.sortedSavedArts.filter fun other => all.articleUuid other ≠ uuid := by
  cases found : Properties.get shelf.savedArts uuid with
  | none =>
      rw [lists.filter_eq_self fun other _ there => nomatch found.symm.trans there]
      simp only [Shelf.removeSaved, found]
  | some article =>
      rw [removeSaved_sorted found]
      exact lists.removeArray_eq_filter keyed found (first article found)

private theorem Lists.removeSaved_iff
    (lists : Lists all (fun _ => True) shelf.savedArts shelf.sortedSavedArts)
    (keyed : Keyed all shelf.savedArts) :
    Lists all (fun _ => True) (shelf.removeSaved now uuid).savedArts
        (shelf.removeSaved now uuid).sortedSavedArts ↔
      ∀ article, Properties.get shelf.savedArts uuid = some article →
        shelf.sortedSavedArts.find? (sameDate now article) = some article := by
  rw [removeSaved_savedArts]
  constructor
  · intro removed article found
    rw [removeSaved_sorted found] at removed
    exact (lists.remove_iff keyed found trivial).mp removed
  · intro first
    rw [lists.removeSaved keyed first]
    exact lists.filter uuid

/-- What a removal leaves. -/
theorem Kept.removeArticle (kept : Kept all shelf) (consistent : Consistent all shelf)
    (now : Fields) (uuid : String) : Kept all (shelf.removeArticle all now uuid) ∧
      (Consistent all (shelf.removeArticle all now uuid) ↔ Removable all now shelf uuid) ∧
      (Removable all now shelf uuid →
        RemovesOnly all uuid shelf (shelf.removeArticle all now uuid)) := by
  obtain ⟨articles, savedArts⟩ := removeArticle_dictionaries all now shelf uuid
  have same := removeSaved_articles now (shelf.removePublished all now uuid) uuid
  have before := removePublished_savedArts all now shelf uuid
  have saved : Lists all (fun _ => True) (shelf.removePublished all now uuid).savedArts
      (shelf.removePublished all now uuid).sortedSavedArts := by
    rw [before.1, before.2]
    exact consistent.saved
  have keyed : Keyed all (shelf.removePublished all now uuid).savedArts := before.1 ▸ kept.savedArts
  refine ⟨⟨articles ▸ kept.articles.delete uuid, savedArts ▸ kept.savedArts.delete uuid⟩, ?_, ?_⟩
  · have left : Published all (shelf.removePublished all now uuid) ↔ _ :=
      Published.remove_iff consistent.sorted kept.articles
    have right : Lists all (fun _ => True) (shelf.removeArticle all now uuid).savedArts
        (shelf.removeArticle all now uuid).sortedSavedArts ↔ _ := saved.removeSaved_iff keyed
    rw [before.1, before.2] at right
    constructor
    · intro after
      refine ⟨left.mp fun kind => ?_, right.mp after.saved⟩
      have here := after.sorted kind
      rw [Shelf.removeArticle, same.1, same.2] at here
      exact here
    · rintro ⟨published, first⟩
      refine ⟨fun other => ?_, fun kind => ?_, right.mpr first⟩
      · rw [articles, savedArts, Properties.get_delete, Properties.get_delete]
        split
        · exact .inl rfl
        · exact consistent.apart other
      · rw [Shelf.removeArticle, same.1, same.2]
        exact left.mpr published kind
  · rintro ⟨published, first⟩
    refine ⟨fun kind => ?_, ?_⟩
    · rw [Shelf.removeArticle, same.2]
      exact Published.remove consistent.sorted kept.articles published kind
    · rw [Shelf.removeArticle, saved.removeSaved keyed (by rw [before.1, before.2]; exact first),
        before.2]

/-! ## Additions -/

private theorem perm_of_inserted {list after : List ArticleRef} {pre : Bool}
    (inserted : (if pre then some (article :: list)
      else insertSorted (compareFn now.createdDate) article list) = some after) :
    after.Perm (article :: list) := by
  split at inserted
  · cases inserted
    exact .refl _
  · exact insertSorted_perm inserted

/-- An article that is saved. -/
theorem Kept.addSortedSavedArts (kept : Kept all shelf) (consistent : Consistent all shelf)
    (added : shelf.addSortedSavedArts all now article = some next) :
    Kept all next ∧ (Consistent all next ↔ CanSave all shelf article) := by
  unfold Shelf.addSortedSavedArts at added
  split at added
  case isTrue here =>
    cases added
    exact ⟨kept, iff_of_true consistent (.inl here)⟩
  case isFalse other =>
    obtain ⟨sortedSavedArts, inserted, rfl⟩ := Option.map_eq_some_iff.mp added
    have perm := insertSorted_perm inserted
    refine ⟨⟨kept.articles, kept.savedArts.set article⟩, fun after => .inr ⟨?_, ?_⟩, ?_⟩
    · refine (after.apart _).resolve_right ?_
      rw [Properties.get_set_self]
      simp
    · cases found : Properties.get shelf.savedArts (all.articleUuid article) with
      | none => rfl
      | some old =>
          have apart : old ≠ article := fun same => other (same ▸ found)
          have inside := consistent.saved.mem_of_get kept.savedArts found trivial
          exact absurd (perm.mem_iff.mpr (List.mem_cons_of_mem _ inside))
            (after.saved.gone (kept.savedArts _ old found) apart)
    · intro can
      obtain ⟨articles, savedArts⟩ := can.resolve_left other
      refine ⟨fun uuid => ?_, consistent.sorted, consistent.saved.add trivial savedArts perm⟩
      by_cases here : uuid = all.articleUuid article
      · exact .inl (here ▸ articles)
      · rw [Properties.get_set_of_ne here]
        exact consistent.apart uuid

/-- An article that is published. -/
theorem Kept.addPublished (kept : Kept all shelf) (consistent : Consistent all shelf) {pre : Bool}
    (added : shelf.addPublished all now article pre = some next) :
    Kept all next ∧ (Consistent all next ↔
      Properties.get shelf.articles (all.articleUuid article) = some article ∨
        Absent shelf (all.articleUuid article)) := by
  unfold Shelf.addPublished at added
  split at added
  case isTrue here =>
    cases added
    exact ⟨kept, iff_of_true consistent (.inl here)⟩
  case isFalse other =>
    obtain ⟨sorted, inserted, rfl⟩ := Option.map_eq_some_iff.mp added
    have perm := perm_of_inserted inserted
    refine ⟨⟨kept.articles.set article, kept.savedArts⟩, fun after => .inr ⟨?_, ?_⟩, ?_⟩
    · cases found : Properties.get shelf.articles (all.articleUuid article) with
      | none => rfl
      | some old =>
          have apart : old ≠ article := fun same => other (same ▸ found)
          have inside := (consistent.sorted (all.kind old)).mem_of_get kept.articles found rfl
          refine absurd ?_ ((after.sorted (all.kind old)).gone (kept.articles _ old found) apart)
          simp only [update_apply]
          split
          case isTrue same => exact perm.mem_iff.mpr (List.mem_cons_of_mem _ (same ▸ inside))
          case isFalse => exact inside
    · refine (after.apart _).resolve_left ?_
      rw [Properties.get_set_self]
      simp
    · intro can
      obtain ⟨articles, savedArts⟩ := can.resolve_left other
      refine ⟨fun uuid => ?_, fun kind => ?_, consistent.saved⟩
      · by_cases here : uuid = all.articleUuid article
        · exact .inr (here ▸ savedArts)
        · rw [Properties.get_set_of_ne here]
          exact consistent.apart uuid
      · simp only [update_apply]
        split
        case isTrue same =>
          subst same
          exact (consistent.sorted _).add rfl articles perm
        case isFalse differs =>
          exact (consistent.sorted kind).set_other (fun same => differs same.symm) articles

theorem Kept.addSortedArticle (kept : Kept all shelf) (consistent : Consistent all shelf)
    {pre : Bool} (added : shelf.addSortedArticle all now article pre = some next) :
    Kept all next ∧ (Consistent all next ↔ CanAdd all now shelf article) := by
  unfold Shelf.addSortedArticle at added
  unfold CanAdd
  split at added
  case isTrue published =>
    rw [if_pos published]
    exact kept.addPublished consistent added
  case isFalse saved =>
    rw [if_neg saved]
    exact kept.addSortedSavedArts consistent added

/-! ## Replacements -/

theorem absent_removeArticle (all : Articles) (now : Fields) (shelf : Shelf) (uuid : String) :
    Absent (shelf.removeArticle all now uuid) uuid := by
  obtain ⟨articles, savedArts⟩ := removeArticle_dictionaries all now shelf uuid
  constructor
  · rw [articles, Properties.get_delete, if_pos rfl]
  · rw [savedArts, Properties.get_delete, if_pos rfl]

/-- An article that was not taken out stays in its list. -/
theorem Kept.stays_removeArticle (kept : Kept all shelf) (consistent : Consistent all shelf)
    (found : Properties.get shelf.articles uuid = some article)
    (stuck : ¬ Removable all now shelf uuid) :
    article ∈ (shelf.removeArticle all now uuid).sorted (all.kind article) := by
  have inside := (consistent.sorted (all.kind article)).mem_of_get kept.articles found rfl
  rw [Shelf.removeArticle, (removeSaved_articles now _ uuid).2, removePublished_sorted found,
    if_pos rfl]
  refine mem_removeArray inside fun first => stuck ⟨fun other there => ?_, fun other there => ?_⟩
  · cases found.symm.trans there
    exact first
  · rcases consistent.apart uuid with none | none
    · cases found.symm.trans none
    · cases there.symm.trans none

/-- A list that has an article of the uuid breaks when an article of the uuid is added. -/
theorem not_consistent_of_stays {old : ArticleRef} {pre : Bool}
    (absent : Absent shelf (all.articleUuid article))
    (same : all.articleUuid old = all.articleUuid article)
    (inside : old ∈ shelf.sorted (all.kind old))
    (added : shelf.addSortedArticle all now article pre = some next) : ¬ Consistent all next := by
  intro after
  have lists := after.sorted (all.kind old)
  unfold Shelf.addSortedArticle at added
  split at added
  case isTrue =>
    have new : Properties.get shelf.articles (all.articleUuid article) ≠ some article :=
      fun there => nomatch absent.articles.symm.trans there
    rw [Shelf.addPublished, if_neg new] at added
    obtain ⟨sorted, inserted, rfl⟩ := Option.map_eq_some_iff.mp added
    have perm := perm_of_inserted inserted
    by_cases again : old = article
    · subst again
      simp only [update_self] at lists
      exact (List.nodup_cons.mp (perm.nodup_iff.mp lists.nodup)).1 inside
    · refine lists.gone same again ?_
      simp only [update_apply]
      split
      case isTrue here => exact perm.mem_iff.mpr (List.mem_cons_of_mem _ (here ▸ inside))
      case isFalse => exact inside
  case isFalse =>
    have new : Properties.get shelf.savedArts (all.articleUuid article) ≠ some article :=
      fun there => nomatch absent.savedArts.symm.trans there
    rw [Shelf.addSortedSavedArts, if_neg new] at added
    obtain ⟨sortedSavedArts, inserted, rfl⟩ := Option.map_eq_some_iff.mp added
    have there := ((lists.mem old).mp inside).2
    rw [same] at there
    cases absent.articles.symm.trans there

theorem Kept.addArticle (kept : Kept all shelf) (consistent : Consistent all shelf) {preend : Bool}
    (added : shelf.addArticle all now article preend = some next) :
    (Consistent all next ↔ Meets all shelf ⟨now, .addArticle article preend⟩) ∧
      (Meets all shelf ⟨now, .addArticle article preend⟩ → Kept all next) := by
  unfold Shelf.addArticle at added
  unfold Meets
  cases found : Properties.get shelf.articles (all.articleUuid article) with
  | none =>
      simp only [found] at added ⊢
      obtain ⟨still, iff⟩ := kept.addSortedArticle consistent added
      exact ⟨iff, fun _ => still⟩
  | some old =>
      simp only [found] at added ⊢
      have absent := absent_removeArticle all now shelf (all.articleUuid article)
      obtain ⟨between, removed, -⟩ := kept.removeArticle consistent now (all.articleUuid article)
      have replaced : Removable all now shelf (all.articleUuid article) →
          Kept all next ∧ Consistent all next := by
        intro can
        obtain ⟨still, iff⟩ := between.addSortedArticle (removed.mpr can) added
        refine ⟨still, iff.mpr ?_⟩
        unfold CanAdd CanSave
        split
        · exact .inr absent
        · exact .inr absent
      refine ⟨⟨fun after => ?_, fun can => (replaced can).2⟩, fun can => (replaced can).1⟩
      by_contra stuck
      exact not_consistent_of_stays absent (kept.articles _ old found)
        (kept.stays_removeArticle consistent found stuck) added after

/-! ## Histories -/

/-- **One call.** -/
theorem Kept.call (kept : Kept all shelf) (consistent : Consistent all shelf) {call : Call}
    (called : shelf.call all call = some next) :
    (Consistent all next ↔ Meets all shelf call) ∧ (Meets all shelf call → Kept all next) ∧
      (Meets all shelf call → ∀ uuid, call.op = .removeArticle uuid →
        RemovesOnly all uuid shelf next) := by
  obtain ⟨now, op⟩ := call
  cases op with
  | addArticle article preend =>
      obtain ⟨iff, keeps⟩ := kept.addArticle consistent called
      exact ⟨iff, keeps, fun _ _ => nofun⟩
  | addSortedArticle article pre =>
      obtain ⟨still, iff⟩ := kept.addSortedArticle consistent called
      exact ⟨iff, fun _ => still, fun _ _ => nofun⟩
  | addSortedSavedArts article =>
      obtain ⟨still, iff⟩ := kept.addSortedSavedArts consistent called
      exact ⟨iff, fun _ => still, fun _ _ => nofun⟩
  | removeArticle uuid =>
      cases called
      obtain ⟨still, iff, removes⟩ := kept.removeArticle consistent now uuid
      refine ⟨iff, fun _ => still, fun can other same => ?_⟩
      cases same
      exact removes can

theorem Kept.consistentAll_iff (kept : Kept all shelf) (consistent : Consistent all shelf)
    (calls : List Call) : ConsistentAll all shelf calls ↔ MeetsAll all shelf calls := by
  induction calls generalizing shelf with
  | nil => exact iff_of_true consistent trivial
  | cons call calls ih =>
      rw [ConsistentAll, MeetsAll, and_iff_right consistent]
      refine forall_congr' fun next => forall_congr' fun called => ?_
      obtain ⟨iff, keeps, removes⟩ := kept.call consistent called
      constructor
      · rintro ⟨-, later⟩
        have after : Consistent all next := by
          cases calls with
          | nil => exact later
          | cons => exact later.1
        have meets := iff.mp after
        exact ⟨meets, (ih (keeps meets) after).mp later⟩
      · rintro ⟨meets, later⟩
        exact ⟨removes meets, (ih (keeps meets) (iff.mpr meets)).mpr later⟩

private theorem kept_empty : Kept all empty where
  articles := nofun
  savedArts := nofun

private theorem consistent_empty : Consistent all empty where
  apart := fun _ => .inl rfl
  sorted := fun _ => ⟨List.nodup_nil, fun _ => ⟨nofun, fun both => nomatch both.2⟩⟩
  saved := ⟨List.nodup_nil, fun _ => ⟨nofun, fun both => nomatch both.2⟩⟩

/-- **The articles of an author.** Dictionaries and lists agree after every call of a history, and
removals take one article, exactly if every call meets its condition. -/
theorem consistentAll_iff_meetsAll_shelf (all : Articles) (calls : List Call) :
    ConsistentAll all empty calls ↔ MeetsAll all empty calls :=
  kept_empty.consistentAll_iff consistent_empty calls

/-- Two published articles of a date. The first one is removed, and the second one goes. -/
theorem removeFirst_not_consistent :
    ¬ ConsistentAll ⟨fun article => if article = 0 then "first" else "second", fun _ => .blogs⟩
      empty
      [⟨⟨fun _ => some 5, fun _ => true⟩, .addArticle 0 false⟩,
        ⟨⟨fun _ => some 5, fun _ => true⟩, .addArticle 1 false⟩,
        ⟨⟨fun _ => some 5, fun _ => true⟩, .removeArticle "first"⟩] := by
  rintro ⟨-, later⟩
  have one := (later _ rfl).2.2 _ rfl
  have two := one.2.2 _ rfl
  exact absurd ((two.1 "first" rfl).sorted .blogs) (by decide)

end Tvntd.AuthorShelf
