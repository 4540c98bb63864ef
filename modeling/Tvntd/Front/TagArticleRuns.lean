import Tvntd.Front.TagArticles
import Mathlib.Data.List.Dedup

/-! # Ranks that arrive

While the rank of an article is not known, the tag that lists the article has to be
the one in `unResolved`. Once it is known, the tag has it in its list, and must not
get it again.
-/

namespace Tvntd.TagArticles

open SortedArray ArticleSort Function

variable {ranks : Ranks} {store next : Store ranks} {tag : Tag} {uuid : String} {rank : RankRef}

/-! ## Dictionaries -/

section Dictionaries

variable {dictionary : Properties String Entry}

/-- Every entry is the uuid that it is under. -/
def Plain (dictionary : Properties String Entry) : Prop :=
  ∀ uuid entry, Properties.get dictionary uuid = some entry → entry = .uuid uuid

theorem Plain.values (plain : Plain dictionary) : ∃ uuids : List String, uuids.Nodup ∧
    Properties.values dictionary = uuids.map Entry.uuid ∧
      ∀ uuid, uuid ∈ uuids ↔ (Properties.get dictionary uuid).isSome := by
  have named : ∀ key entry, Properties.get dictionary key = some entry → entry.text = key := by
    intro key entry found
    rw [plain key entry found]
    rfl
  have entries : ∀ entry ∈ Properties.values dictionary, entry = .uuid entry.text := by
    intro entry inside
    obtain ⟨key, found⟩ := Properties.mem_values.mp inside
    rw [plain key entry found]
    rfl
  refine ⟨(Properties.values dictionary).map Entry.text, ?_, ?_, fun uuid => ?_⟩
  · refine (Properties.nodup_values Entry.text named).map_on fun first left second right same => ?_
    rw [entries first left, entries second right, same]
  · rw [List.map_map]
    conv_lhs => rw [← List.map_id (Properties.values dictionary)]
    exact List.map_congr_left entries
  · rw [List.mem_map, Option.isSome_iff_exists]
    constructor
    · rintro ⟨entry, inside, rfl⟩
      obtain ⟨key, found⟩ := Properties.mem_values.mp inside
      exact ⟨entry, (named key entry found).symm ▸ found⟩
    · rintro ⟨entry, found⟩
      exact ⟨entry, Properties.mem_values_of_get found, named uuid entry found⟩

private theorem plain_uuidsOf (articleRank : List String) : Plain (uuidsOf articleRank) := by
  intro uuid entry found
  rw [uuidsOf, Properties.get_collect] at found
  obtain ⟨inside, same⟩ := List.mem_filter.mp (List.mem_of_getLast? found)
  obtain ⟨other, -, rfl⟩ := List.mem_map.mp inside
  exact congrArg Entry.uuid (of_decide_eq_true same)

private theorem isSome_get_uuidsOf (articleRank : List String) (uuid : String) :
    (Properties.get (uuidsOf articleRank) uuid).isSome ↔ uuid ∈ articleRank := by
  have values : ∀ entry, entry ∈ Properties.values (uuidsOf articleRank) ↔
      entry ∈ articleRank.map Entry.uuid := by
    refine (Properties.mem_collect_iff Entry.text _).mpr ?_
    intro first left second right same
    obtain ⟨one, -, rfl⟩ := List.mem_map.mp left
    obtain ⟨two, -, rfl⟩ := List.mem_map.mp right
    exact congrArg Entry.uuid same
  obtain ⟨uuids, -, listed, mem⟩ := (plain_uuidsOf articleRank).values
  have inside := values (.uuid uuid)
  rw [listed] at inside
  simp only [List.mem_map, Entry.uuid.injEq, exists_eq_right] at inside
  rw [← mem, inside]

end Dictionaries

/-! ## What is kept -/

/-- Ranks in lists are known, tags wait for unknown ranks only, and the dictionary of a tag without
a list has uuids only. -/
structure Kept (store : Store ranks) : Prop where
  known : ∀ tag, ∀ rank ∈ store.arts tag, (store.lookup (ranks.articleUuid rank)).isSome
  unknown : ∀ uuid tag, Properties.get store.unResolved uuid = some tag →
    store.lookup uuid = none
  plain : ∀ tag, store.sortedArts tag = none → Plain (store.articleRank tag)

private theorem articleUuid_of_lookup (found : store.lookup uuid = some rank) :
    ranks.articleUuid rank = uuid := store.authorStore.keyed uuid rank found

private theorem fits_of_known (known : (store.lookup uuid).isSome) :
    store.Fits tag uuid ↔ ((store.arts tag).map ranks.articleUuid).count uuid = 1 := by
  obtain ⟨rank, found⟩ := Option.isSome_iff_exists.mp known
  rw [Store.Fits, found]

private theorem fits_of_unknown (unknown : store.lookup uuid = none) :
    store.Fits tag uuid ↔ Properties.get store.unResolved uuid = some tag := by
  rw [Store.Fits, unknown]

/-- A list does not change what is asked of a uuid if it has the uuid as often. -/
theorem fits_congr {other : Tag} (lookup : (next.lookup uuid).isSome = (store.lookup uuid).isSome)
    (count : ((next.arts other).map ranks.articleUuid).count uuid =
      ((store.arts other).map ranks.articleUuid).count uuid)
    (waiting : store.lookup uuid = none →
      Properties.get next.unResolved uuid = Properties.get store.unResolved uuid) :
    next.Fits other uuid ↔ store.Fits other uuid := by
  by_cases known : (store.lookup uuid).isSome
  · rw [fits_of_known known, fits_of_known (lookup.trans known), count]
  · have unknown := Option.not_isSome_iff_eq_none.mp known
    rw [← lookup] at known
    rw [fits_of_unknown unknown, fits_of_unknown (Option.not_isSome_iff_eq_none.mp known),
      waiting unknown]

/-! ## A rank for a tag -/

/-- What a tag is after it got a rank, and what the others are. -/
structure Inserted (store next : Store ranks) (tag : Tag) (rank : RankRef) : Prop where
  unResolved : next.unResolved = store.unResolved
  authorStore : next.authorStore = store.authorStore
  sortedArts : next.sortedArts tag ≠ none
  perm : (next.arts tag).Perm (rank :: store.arts tag)
  lists : ∀ uuid, uuid ≠ ranks.articleUuid rank → next.Lists tag uuid → store.Lists tag uuid
  sorted : SortedByDate ranks.createdDate (store.arts tag) →
    Dated ranks.createdDate (rank :: store.arts tag) →
      SortedByDate ranks.createdDate (next.arts tag)
  others : ∀ other, other ≠ tag → next.sortedArts other = store.sortedArts other ∧
    next.articleRank other = store.articleRank other

theorem inserted_of_insertArticleRank (inserted : store.insertArticleRank tag rank = some next) :
    Inserted store next tag rank := by
  unfold Store.insertArticleRank at inserted
  split at inserted
  case h_1 null =>
    cases inserted
    have before : store.arts tag = [] := by rw [Store.arts, null, Option.getD_none]
    have after : Store.arts
        { store with sortedArts := update store.sortedArts tag (some [rank]) } tag =
          [rank] := by
      simp only [Store.arts, update_self, Option.getD_some]
    refine ⟨rfl, rfl, ?_, ?_, ?_, fun _ _ => ?_, fun other apart => ⟨?_, rfl⟩⟩
    · simp only [update_self]
      exact nofun
    · rw [after, before]
    · rintro uuid apart (here | inside)
      · exact .inl here
      · rw [after] at inside
        exact absurd (List.mem_singleton.mp inside) apart
    · rw [after]
      exact List.pairwise_singleton _ _
    · exact update_of_ne apart _ _
  case h_2 sortedArts there =>
    obtain ⟨array, placed, rfl⟩ := Option.map_eq_some_iff.mp inserted
    have perm := insertSorted_perm placed
    refine ⟨rfl, rfl, ?_, ?_, ?_, ?_, fun other apart => ⟨?_, ?_⟩⟩
    · simp only [update_self]
      exact nofun
    · simpa only [Store.arts, update_self, there, Option.getD_some] using perm
    · intro uuid apart
      simp only [Store.Lists, Store.arts, update_self, Option.getD_some, there,
        Properties.get_set_of_ne apart]
      refine Or.imp_right fun inside => ?_
      have inside := (perm.map ranks.articleUuid).mem_iff.mp inside
      exact (List.mem_cons.mp inside).resolve_left apart
    · intro sorted dated
      simp only [Store.arts, update_self, Option.getD_some, there] at sorted dated ⊢
      exact sorted.insertSorted dated placed
    · exact update_of_ne apart _ _
    · exact update_of_ne apart _ _

theorem Inserted.lookup (inserted : Inserted store next tag rank) (uuid : String) :
    next.lookup uuid = store.lookup uuid := by
  rw [Store.lookup, inserted.authorStore]
  rfl

theorem Inserted.arts (inserted : Inserted store next tag rank) {other : Tag}
    (apart : other ≠ tag) : next.arts other = store.arts other := by
  rw [Store.arts, (inserted.others other apart).1]
  rfl

theorem Inserted.kept (inserted : Inserted store next tag rank) (kept : Kept store)
    (known : (store.lookup (ranks.articleUuid rank)).isSome) : Kept next where
  known := by
    intro other listed inside
    rw [inserted.lookup]
    by_cases same : other = tag
    · subst same
      rcases List.mem_cons.mp (inserted.perm.mem_iff.mp inside) with rfl | before
      · exact known
      · exact kept.known other listed before
    · rw [inserted.arts same] at inside
      exact kept.known other listed inside
  unknown := by
    intro uuid other waiting
    rw [inserted.lookup]
    rw [inserted.unResolved] at waiting
    exact kept.unknown uuid other waiting
  plain := by
    intro other null
    by_cases same : other = tag
    · exact absurd (same ▸ null) inserted.sortedArts
    · obtain ⟨sortedArts, articleRank⟩ := inserted.others other same
      rw [articleRank]
      exact kept.plain other (sortedArts.symm.trans null)

/-- A tag has a rank once that it could get, whatever was asked of its uuid before. -/
theorem Inserted.consistent (inserted : Inserted store next tag rank)
    (known : (store.lookup (ranks.articleUuid rank)).isSome) (can : store.CanGet tag rank)
    (fits : ∀ other uuid, (other = tag → uuid ≠ ranks.articleUuid rank) →
      store.Lists other uuid → store.Fits other uuid)
    (sorted : ∀ other, SortedByDate ranks.createdDate (store.arts other)) : next.Consistent where
  fits := by
    intro other uuid lists
    have lookup := congrArg Option.isSome (inserted.lookup uuid)
    by_cases same : other = tag
    · subst same
      have counts := (inserted.perm.map ranks.articleUuid).count_eq uuid
      by_cases here : uuid = ranks.articleUuid rank
      · subst here
        rw [fits_of_known (lookup.trans known), counts, List.map_cons, List.count_cons_self,
          List.count_eq_zero.mpr can.new]
      · rw [List.map_cons, List.count_cons_of_ne (Ne.symm here)] at counts
        refine (fits_congr lookup counts fun _ => by rw [inserted.unResolved]).mpr ?_
        exact fits other uuid (fun _ => here) (inserted.lists uuid here lists)
    · have before : store.Lists other uuid := by
        rw [Store.Lists, inserted.arts same, (inserted.others other same).2] at lists
        exact lists
      refine (fits_congr lookup (by rw [inserted.arts same]) fun _ => by
        rw [inserted.unResolved]).mpr ?_
      exact fits other uuid (fun here => absurd here same) before
  sorted := by
    intro other
    by_cases same : other = tag
    · subst same
      exact inserted.sorted (sorted other) can.dated
    · rw [inserted.arts same]
      exact sorted other

/-! ## Ranks of `AuthorStore` -/

theorem lookup_addArticleRankFromJson (store : Store ranks) (obj : RankRef) (uuid : String) :
    Store.lookup { store with authorStore := store.authorStore.addArticleRankFromJson obj } uuid =
      if uuid = ranks.articleUuid obj then some obj else store.lookup uuid :=
  Properties.get_set _ _ _ _

/-- A rank that no tag waits for, or that was known. -/
theorem Kept.addArticleRankFromJson (kept : Kept store) (consistent : store.Consistent)
    {obj : RankRef} (free : store.lookup (ranks.articleUuid obj) = none →
      Properties.get store.unResolved (ranks.articleUuid obj) = none) :
    Kept { store with authorStore := store.authorStore.addArticleRankFromJson obj } ∧
      Store.Consistent
        { store with authorStore := store.authorStore.addArticleRankFromJson obj } := by
  have lookup := lookup_addArticleRankFromJson store obj
  refine ⟨⟨fun tag rank inside => ?_, fun uuid tag waiting => ?_, kept.plain⟩,
    fun tag uuid lists => ?_, consistent.sorted⟩
  · rw [lookup]
    split
    · rfl
    · exact kept.known tag rank inside
  · have unknown := kept.unknown uuid tag waiting
    have apart : uuid ≠ ranks.articleUuid obj := by
      rintro rfl
      cases (free unknown).symm.trans waiting
    rw [lookup, if_neg apart]
    exact unknown
  · have before := consistent.fits tag uuid lists
    have same : (Store.lookup
        { store with authorStore := store.authorStore.addArticleRankFromJson obj } uuid).isSome =
          (store.lookup uuid).isSome := by
      rw [lookup]
      split
      case isTrue here =>
        subst here
        cases unknown : store.lookup (ranks.articleUuid obj) with
        | some rank => rfl
        | none =>
            rw [fits_of_unknown unknown, free unknown] at before
            cases before
      case isFalse => rfl
    exact (fits_congr same rfl fun _ => rfl).mpr before

/-! ## Sorting the articles of a tag -/

/-- What the loop of `sortArticles` has done with some uuids. -/
structure Turned (store next : Store ranks) (tag : Tag) (uuids : List String)
    (list after : List RankRef) : Prop where
  authorStore : next.authorStore = store.authorStore
  sortedArts : next.sortedArts = store.sortedArts
  unResolved : ∀ uuid, Properties.get next.unResolved uuid =
    if uuid ∈ uuids ∧ store.lookup uuid = none then some tag
    else Properties.get store.unResolved uuid
  others : ∀ other, other ≠ tag → next.articleRank other = store.articleRank other
  listed : ∀ uuid, (Properties.get (next.articleRank tag) uuid).isSome →
    (Properties.get (store.articleRank tag) uuid).isSome ∨ uuid ∈ uuids
  unchanged : uuids.filterMap store.lookup = [] → next.articleRank tag = store.articleRank tag
  perm : after.Perm (uuids.filterMap store.lookup ++ list)
  sorted : SortedByDate ranks.createdDate list →
    Dated ranks.createdDate (uuids.filterMap store.lookup ++ list) →
      SortedByDate ranks.createdDate after

private theorem sortTurn_of_unknown (list : List RankRef) (unknown : store.lookup uuid = none) :
    Store.sortTurn tag (store, list) (.uuid uuid) =
      some ({ store with unResolved := Properties.set store.unResolved uuid tag }, list) := by
  simp only [Store.sortTurn, Entry.text, unknown]

private theorem sortTurn_of_known (list : List RankRef) (found : store.lookup uuid = some rank) :
    Store.sortTurn tag (store, list) (.uuid uuid) =
      (insertSorted (compareFn ranks.createdDate) rank list).map fun sortedArts =>
        ({ store with
            articleRank := update store.articleRank tag
              (Properties.set (store.articleRank tag) uuid (.rank rank)) }, sortedArts) := by
  simp only [Store.sortTurn, Entry.text, found, articleUuid_of_lookup found]

private theorem turned_of_foldlM (uuids : List String) : ∀ {store next : Store ranks}
    {list after : List RankRef},
    (uuids.map Entry.uuid).foldlM (Store.sortTurn tag) (store, list) = some (next, after) →
      Turned store next tag uuids list after := by
  induction uuids with
  | nil =>
      intro store next list after done
      cases done
      refine ⟨rfl, rfl, fun uuid => ?_, fun _ _ => rfl, fun _ => .inl, fun _ => rfl, .refl _,
        fun sorted _ => sorted⟩
      rw [if_neg fun both => List.not_mem_nil both.1]
  | cons uuid uuids ih =>
      intro store next list after done
      rw [List.map_cons, List.foldlM_cons] at done
      obtain ⟨⟨middle, between⟩, turn, done⟩ := Option.bind_eq_some_iff.mp done
      cases found : store.lookup uuid with
      | none =>
          rw [sortTurn_of_unknown list found] at turn
          cases turn
          have rest := ih done
          refine ⟨rest.authorStore, rest.sortedArts, fun other => ?_, rest.others,
            fun other there => ?_, ?_, ?_, ?_⟩
          · have waiting : Properties.get next.unResolved other =
                if other ∈ uuids ∧ store.lookup other = none then some tag
                else Properties.get (Properties.set store.unResolved uuid tag) other :=
              rest.unResolved other
            by_cases later : other ∈ uuids ∧ store.lookup other = none
            · rw [waiting, if_pos later, if_pos ⟨List.mem_cons_of_mem _ later.1, later.2⟩]
            · rw [waiting, if_neg later, Properties.get_set]
              by_cases same : other = uuid
              · subst same
                rw [if_pos rfl, if_pos ⟨List.mem_cons_self, found⟩]
              · rw [if_neg same, if_neg]
                rintro ⟨inside, unknown⟩
                exact later ⟨(List.mem_cons.mp inside).resolve_left same, unknown⟩
          · exact (rest.listed other there).imp_right (List.mem_cons_of_mem _)
          · rw [List.filterMap_cons_none found]
            exact rest.unchanged
          · rw [List.filterMap_cons_none found]
            exact rest.perm
          · rw [List.filterMap_cons_none found]
            exact rest.sorted
      | some rank =>
          rw [sortTurn_of_known list found] at turn
          obtain ⟨array, placed, same⟩ := Option.map_eq_some_iff.mp turn
          cases same
          have rest := ih done
          have perm := insertSorted_perm placed
          have moved : (uuids.filterMap store.lookup ++ between).Perm
              (rank :: (uuids.filterMap store.lookup ++ list)) :=
            (perm.append_left _).trans List.perm_middle
          refine ⟨rest.authorStore, rest.sortedArts, fun other => ?_, fun other apart => ?_,
            fun other there => ?_, ?_, ?_, ?_⟩
          · have waiting : Properties.get next.unResolved other =
                if other ∈ uuids ∧ store.lookup other = none then some tag
                else Properties.get store.unResolved other := rest.unResolved other
            rw [waiting]
            refine if_congr (and_congr_left fun unknown => ?_) rfl rfl
            rw [List.mem_cons, or_iff_right]
            rintro rfl
            cases found.symm.trans unknown
          · rw [rest.others other apart]
            exact update_of_ne apart _ _
          · rcases rest.listed other there with before | later
            · simp only [update_self] at before
              rw [Properties.get_set] at before
              split at before
              case isTrue same => exact .inr (same ▸ List.mem_cons_self)
              case isFalse => exact .inl before
            · exact .inr (List.mem_cons_of_mem _ later)
          · rw [List.filterMap_cons_some found]
            exact nofun
          · rw [List.filterMap_cons_some found]
            exact rest.perm.trans moved
          · rw [List.filterMap_cons_some found]
            intro sorted dated
            have parts := List.pairwise_cons.mp dated
            have first : Dated ranks.createdDate (rank :: list) :=
              List.pairwise_cons.mpr ⟨fun other inside =>
                parts.1 other (List.mem_append_right _ inside),
                parts.2.sublist (List.sublist_append_right _ _)⟩
            exact rest.sorted (sorted.insertSorted first placed) (dated.perm moved)

/-- The uuids of known ranks. -/
theorem map_articleUuid_filterMap (store : Store ranks) (uuids : List String) :
    (uuids.filterMap store.lookup).map ranks.articleUuid =
      uuids.filter fun uuid => (store.lookup uuid).isSome := by
  induction uuids with
  | nil => rfl
  | cons uuid uuids ih =>
      cases found : store.lookup uuid with
      | none => rw [List.filterMap_cons_none found, ih, List.filter_cons_of_neg (by simp [found])]
      | some rank =>
          rw [List.filterMap_cons_some found, List.map_cons, ih, articleUuid_of_lookup found,
            List.filter_cons_of_pos (by simp [found])]

/-- What `sortArticles` does with a tag that has no list. -/
structure SortedTag (store next : Store ranks) (tag : Tag) (uuids : List String) : Prop where
  authorStore : next.authorStore = store.authorStore
  unResolved : ∀ uuid, Properties.get next.unResolved uuid =
    if uuid ∈ uuids ∧ store.lookup uuid = none then some tag
    else Properties.get store.unResolved uuid
  others : ∀ other, other ≠ tag → next.sortedArts other = store.sortedArts other ∧
    next.articleRank other = store.articleRank other
  lists : ∀ uuid, next.Lists tag uuid → uuid ∈ uuids
  plain : next.sortedArts tag = none → next.articleRank tag = store.articleRank tag
  perm : (next.arts tag).Perm (uuids.filterMap store.lookup)
  sorted : Dated ranks.createdDate (uuids.filterMap store.lookup) →
    SortedByDate ranks.createdDate (next.arts tag)

private theorem sortedTag_of_sortArticles {uuids : List String} (null : store.sortedArts tag = none)
    (values : Properties.values (store.articleRank tag) = uuids.map Entry.uuid)
    (mem : ∀ uuid, uuid ∈ uuids ↔ (Properties.get (store.articleRank tag) uuid).isSome)
    (sorted : store.sortArticles tag = some next) : SortedTag store next tag uuids := by
  unfold Store.sortArticles at sorted
  rw [null, values] at sorted
  obtain ⟨⟨middle, list⟩, done, rfl⟩ := Option.map_eq_some_iff.mp sorted
  have turned := turned_of_foldlM uuids done
  have perm := turned.perm
  have dates := turned.sorted List.Pairwise.nil
  rw [List.append_nil] at perm dates
  have inside : ∀ uuid, uuid ∈ list.map ranks.articleUuid → uuid ∈ uuids := by
    intro uuid there
    rw [(perm.map _).mem_iff, map_articleUuid_filterMap] at there
    exact (List.mem_filter.mp there).1
  have listed : ∀ uuid, (Properties.get (middle.articleRank tag) uuid).isSome → uuid ∈ uuids :=
    fun uuid there => (turned.listed uuid there).elim (mem uuid).mpr id
  by_cases none : list = []
  · have arts : middle.arts tag = list := by
      rw [Store.arts, turned.sortedArts, null, none, Option.getD_none]
    simp only [if_pos none]
    refine ⟨turned.authorStore, turned.unResolved,
      fun other apart => ⟨by rw [turned.sortedArts], turned.others other apart⟩,
      fun uuid there => ?_, fun _ => turned.unchanged ?_, arts ▸ perm, arts ▸ dates⟩
    · rw [Store.Lists, arts] at there
      exact there.elim (listed uuid) (inside uuid)
    · rw [none] at perm
      exact List.nil_perm.mp perm
  · have arts : Store.arts
        { middle with sortedArts := update middle.sortedArts tag (some list) } tag =
          list := by
      simp only [Store.arts, update_self, Option.getD_some]
    simp only [if_neg none]
    refine ⟨turned.authorStore, turned.unResolved,
      fun other apart => ⟨?_, turned.others other apart⟩, fun uuid there => ?_, fun there => ?_,
      by rw [arts]; exact perm, by rw [arts]; exact dates⟩
    · rw [← turned.sortedArts]
      exact update_of_ne apart _ _
    · rw [Store.Lists, arts] at there
      exact there.elim (listed uuid) (inside uuid)
    · simp only [update_self] at there
      cases there

/-- A tag that no other tag gets in the way of. -/
theorem Kept.sortArticles (kept : Kept store) (null : store.sortedArts tag = none)
    (sorted : store.sortArticles tag = some next)
    (others : ∀ other, other ≠ tag → ∀ uuid, store.Lists other uuid → store.Fits other uuid)
    (free : ∀ uuid, (Properties.get (store.articleRank tag) uuid).isSome →
      store.lookup uuid = none → ∀ other, other ≠ tag → ¬ store.Lists other uuid)
    (dates : ∀ other, other ≠ tag → SortedByDate ranks.createdDate (store.arts other))
    (dated : ∀ uuids : List String, uuids.Nodup →
      (∀ uuid, uuid ∈ uuids ↔ (Properties.get (store.articleRank tag) uuid).isSome) →
        Dated ranks.createdDate (uuids.filterMap store.lookup)) :
    Kept next ∧ next.Consistent := by
  obtain ⟨uuids, nodup, values, mem⟩ := (kept.plain tag null).values
  have spec := sortedTag_of_sortArticles null values mem sorted
  have lookup : next.lookup = store.lookup := by
    funext uuid
    rw [Store.lookup, spec.authorStore]
    rfl
  have arts : ∀ other, other ≠ tag → next.arts other = store.arts other := by
    intro other apart
    rw [Store.arts, (spec.others other apart).1]
    rfl
  refine ⟨⟨fun other rank inside => ?_, fun uuid other waiting => ?_, fun other none => ?_⟩,
    fun other uuid lists => ?_, fun other => ?_⟩
  · rw [lookup]
    by_cases same : other = tag
    · rw [same, spec.perm.mem_iff] at inside
      obtain ⟨uuid, -, found⟩ := List.mem_filterMap.mp inside
      rw [articleUuid_of_lookup found, found]
      rfl
    · rw [arts other same] at inside
      exact kept.known other rank inside
  · rw [lookup]
    rw [spec.unResolved] at waiting
    split at waiting
    case isTrue both => exact both.2
    case isFalse => exact kept.unknown uuid other waiting
  · by_cases same : other = tag
    · subst same
      rw [spec.plain none]
      exact kept.plain other null
    · obtain ⟨sortedArts, articleRank⟩ := spec.others other same
      rw [articleRank]
      exact kept.plain other (sortedArts.symm.trans none)
  · by_cases same : other = tag
    · subst same
      have inside := spec.lists uuid lists
      by_cases known : (store.lookup uuid).isSome
      · rw [fits_of_known (by rw [lookup]; exact known), (spec.perm.map _).count_eq,
          map_articleUuid_filterMap]
        exact List.count_eq_one_of_mem (nodup.filter _) (List.mem_filter.mpr ⟨inside, known⟩)
      · have unknown := Option.not_isSome_iff_eq_none.mp known
        rw [fits_of_unknown (by rw [lookup]; exact unknown), spec.unResolved,
          if_pos ⟨inside, unknown⟩]
    · have before : store.Lists other uuid := by
        rw [Store.Lists, arts other same, (spec.others other same).2] at lists
        exact lists
      refine (fits_congr (by rw [lookup]) (by rw [arts other same]) fun unknown => ?_).mpr
        (others other same uuid before)
      rw [spec.unResolved, if_neg]
      rintro ⟨inside, -⟩
      exact free uuid ((mem uuid).mp inside) unknown other same before
  · by_cases same : other = tag
    · subst same
      exact spec.sorted (dated uuids nodup mem)
    · rw [arts other same]
      exact dates other same

/-! ## Calls -/

/-- A tag that is sorted again stays what it is. -/
theorem Kept.sortArticles_again (kept : Kept store) (consistent : store.Consistent)
    (sorted : store.sortArticles tag = some next) : Kept next ∧ next.Consistent := by
  cases null : store.sortedArts tag with
  | some sortedArts =>
      rw [Store.sortArticles, null] at sorted
      cases sorted
      exact ⟨kept, consistent⟩
  | none =>
      have none : ∀ uuid, (Properties.get (store.articleRank tag) uuid).isSome →
          store.lookup uuid = none := by
        intro uuid there
        by_contra known
        have once := (fits_of_known (Option.isSome_iff_ne_none.mpr known)).mp
          (consistent.fits tag uuid (.inl there))
        rw [Store.arts, null] at once
        cases once
      refine kept.sortArticles null sorted (fun other _ => consistent.fits other)
        (fun uuid there unknown other apart lists => ?_) (fun other _ => consistent.sorted other)
        fun uuids _ mem => ?_
      · have mine := (fits_of_unknown unknown).mp (consistent.fits tag uuid (.inl there))
        have others := (fits_of_unknown unknown).mp (consistent.fits other uuid lists)
        exact apart (Option.some.inj (others.symm.trans mine))
      · rw [List.filterMap_eq_nil_iff.mpr fun uuid inside => none uuid ((mem uuid).mp inside)]
        exact List.Pairwise.nil

theorem Kept.newArtTag (kept : Kept store) (articleRank : List String) :
    Kept (store.newArtTag articleRank).1 where
  known := by
    intro tag rank inside
    refine kept.known tag rank ?_
    simp only [Store.newArtTag, Store.arts, update_apply] at inside
    split at inside
    case isTrue => cases inside
    case isFalse => exact inside
  unknown := kept.unknown
  plain := by
    intro tag null
    simp only [Store.newArtTag, update_apply] at null ⊢
    split at null
    case isTrue same =>
      rw [if_pos same]
      exact plain_uuidsOf articleRank
    case isFalse apart =>
      rw [if_neg apart]
      exact kept.plain tag null

/-- Other tags than the new one. -/
theorem newArtTag_others (store : Store ranks) (articleRank : List String) {other : Tag}
    (apart : other ≠ store.made) :
    (store.newArtTag articleRank).1.sortedArts other = store.sortedArts other ∧
      (store.newArtTag articleRank).1.articleRank other = store.articleRank other :=
  ⟨update_of_ne apart _ _, update_of_ne apart _ _⟩

/-- A tag with articles that no tag waits for. -/
theorem Kept.addTag (kept : Kept store) (consistent : store.Consistent) {articleRank : List String}
    (can : store.CanMake articleRank)
    (added : (store.newArtTag articleRank).1.sortArticles store.made = some next) :
    Kept next ∧ next.Consistent := by
  have made : (store.newArtTag articleRank).1.articleRank store.made = uuidsOf articleRank :=
    update_self _ _ _
  have lists : ∀ other, other ≠ store.made → ∀ uuid,
      (store.newArtTag articleRank).1.Lists other uuid ↔ store.Lists other uuid := by
    intro other apart uuid
    obtain ⟨sortedArts, entries⟩ := newArtTag_others store articleRank apart
    rw [Store.Lists, Store.Lists, Store.arts, Store.arts, sortedArts, entries]
  have fits : ∀ other, other ≠ store.made → ∀ uuid,
      (store.newArtTag articleRank).1.Fits other uuid ↔ store.Fits other uuid := by
    intro other apart uuid
    refine fits_congr rfl ?_ fun _ => rfl
    rw [Store.arts, Store.arts, (newArtTag_others store articleRank apart).1]
  refine (kept.newArtTag articleRank).sortArticles (update_self _ _ _) added
    (fun other apart uuid there => ?_) (fun uuid there unknown other apart listed => ?_)
    (fun other apart => ?_) fun uuids nodup mem => ?_
  · have before := (lists other apart uuid).mp there
    exact (fits other apart uuid).mpr (consistent.fits other uuid before)
  · rw [made, isSome_get_uuidsOf] at there
    have unknown : store.lookup uuid = none := unknown
    have waits := (fits_of_unknown unknown).mp
      (consistent.fits other uuid ((lists other apart uuid).mp listed))
    cases (can.free uuid there unknown).symm.trans waits
  · rw [Store.arts, (newArtTag_others store articleRank apart).1]
    exact consistent.sorted other
  · have perm : uuids.Perm articleRank.dedup := by
      refine (List.perm_ext_iff_of_nodup nodup articleRank.nodup_dedup).mpr fun uuid => ?_
      rw [mem, made, isSome_get_uuidsOf, List.mem_dedup]
    exact can.dated.perm (perm.filterMap _)

/-- A tag without articles. -/
theorem Kept.newArtTag_nil (kept : Kept store) (consistent : store.Consistent) :
    Kept (store.newArtTag []).1 ∧ (store.newArtTag []).1.Consistent := by
  have null : (store.newArtTag []).1.arts store.made = [] := by
    simp only [Store.newArtTag, Store.arts, update_self, Option.getD_none]
  have none : ∀ uuid, ¬ (store.newArtTag []).1.Lists store.made uuid := by
    rintro uuid (there | inside)
    · have entries : (store.newArtTag []).1.articleRank store.made = uuidsOf [] :=
        update_self _ _ _
      rw [entries, isSome_get_uuidsOf] at there
      cases there
    · rw [null] at inside
      cases inside
  refine ⟨kept.newArtTag [], fun other uuid there => ?_, fun other => ?_⟩
  · have apart : other ≠ store.made := by
      rintro rfl
      exact none uuid there
    obtain ⟨sortedArts, entries⟩ := newArtTag_others store [] apart
    have arts : (store.newArtTag []).1.arts other = store.arts other := by
      rw [Store.arts, Store.arts, sortedArts]
    rw [Store.Lists, arts, entries] at there
    have same : (store.newArtTag []).1.Fits other uuid ↔ store.Fits other uuid :=
      fits_congr rfl (by rw [arts]) fun _ => rfl
    exact same.mpr (consistent.fits other uuid there)
  · by_cases same : other = store.made
    · rw [same, null]
      exact List.Pairwise.nil
    · rw [Store.arts, (newArtTag_others store [] same).1]
      exact consistent.sorted other

/-- An article of a tag that is not known yet, or that the tag gets at once. -/
theorem Kept.addArticleRank (kept : Kept store) (consistent : store.Consistent)
    (can : store.CanAdd tag uuid) (added : store.addArticleRank tag uuid = some next) :
    Kept next ∧ next.Consistent := by
  unfold Store.CanAdd at can
  unfold Store.addArticleRank at added
  cases found : store.lookup uuid with
  | some rank =>
      simp only [found] at can added
      split at added
      case isTrue new =>
        have known : (store.lookup (ranks.articleUuid rank)).isSome := by
          rw [articleUuid_of_lookup found, found]
          rfl
        have inserted := inserted_of_insertArticleRank added
        exact ⟨inserted.kept kept known, inserted.consistent known (can new)
          (fun other uuid _ => consistent.fits other uuid) consistent.sorted⟩
      case isFalse =>
        cases added
        exact ⟨kept, consistent⟩
  | none =>
      simp only [found] at can added
      -- Both branches have the uuid in the dictionary in the end, and the tag waits for it.
      have after : next.authorStore = store.authorStore ∧ next.sortedArts = store.sortedArts ∧
          next.unResolved = Properties.set store.unResolved uuid tag ∧
          ∀ other, next.articleRank other = store.articleRank other ∨ other = tag ∧
            next.articleRank tag = Properties.set (store.articleRank tag) uuid (.uuid uuid) := by
        split at added
        case isTrue =>
          cases added
          refine ⟨rfl, rfl, rfl, fun other => ?_⟩
          by_cases same : other = tag
          · exact .inr ⟨same, update_self _ _ _⟩
          · exact .inl (update_of_ne same _ _)
        case isFalse =>
          cases added
          exact ⟨rfl, rfl, rfl, fun _ => .inl rfl⟩
      obtain ⟨authorStore, sortedArts, unResolved, articleRank⟩ := after
      have lookup : next.lookup = store.lookup := by
        funext other
        rw [Store.lookup, authorStore]
        rfl
      have arts : next.arts = store.arts := by
        funext other
        rw [Store.arts, sortedArts]
        rfl
      refine ⟨⟨fun other rank inside => ?_, fun other waiter waiting => ?_, fun other null => ?_⟩,
        fun other listed there => ?_, fun other => ?_⟩
      · rw [lookup]
        rw [arts] at inside
        exact kept.known other rank inside
      · rw [lookup]
        rw [unResolved, Properties.get_set] at waiting
        split at waiting
        case isTrue same => exact same ▸ found
        case isFalse => exact kept.unknown other waiter waiting
      · rw [sortedArts] at null
        have plain := kept.plain other null
        rcases articleRank other with same | ⟨rfl, here⟩
        · rw [same]
          exact plain
        · intro key entry there
          rw [here, Properties.get_set] at there
          split at there
          case isTrue same =>
            cases there
            exact congrArg Entry.uuid same.symm
          case isFalse => exact plain key entry there
      · by_cases same : listed = uuid
        · subst same
          rw [fits_of_unknown (by rw [lookup]; exact found), unResolved, Properties.get_set_self]
          refine congrArg some (Eq.symm ?_)
          by_contra apart
          have before : store.Lists other listed := by
            rw [Store.Lists, arts,
              (articleRank other).resolve_right fun both => apart both.1] at there
            exact there
          exact apart (can other ((fits_of_unknown found).mp (consistent.fits other listed before)))
        · have before : store.Lists other listed := by
            rw [Store.Lists, arts] at there
            refine there.imp_left fun entry => ?_
            rcases articleRank other with still | ⟨rfl, here⟩
            · rw [still] at entry
              exact entry
            · rw [here, Properties.get_set_of_ne same] at entry
              exact entry
          refine (fits_congr (by rw [lookup]) (by rw [arts]) fun _ => ?_).mpr
            (consistent.fits other listed before)
          rw [unResolved, Properties.get_set_of_ne same]
      · rw [arts]
        exact consistent.sorted other

/-- An article of an unknown rank comes, and a tag waits for it. -/
theorem Kept.resolve (kept : Kept store) (consistent : store.Consistent) {obj : RankRef}
    (unknown : store.lookup (ranks.articleUuid obj) = none)
    (waiting : Properties.get store.unResolved (ranks.articleUuid obj) = some tag)
    (can : store.CanGet tag obj) {middle : Store ranks}
    (resolved : middle.insertArticleRank tag obj = some next)
    (authorStore : middle.authorStore = store.authorStore.addArticleRankFromJson obj)
    (unResolved : middle.unResolved =
      Properties.delete store.unResolved (ranks.articleUuid obj))
    (articleRank : middle.articleRank = store.articleRank)
    (sortedArts : middle.sortedArts = store.sortedArts) : Kept next ∧ next.Consistent := by
  have inserted := inserted_of_insertArticleRank resolved
  have lookup : ∀ uuid, middle.lookup uuid =
      if uuid = ranks.articleUuid obj then some obj else store.lookup uuid := by
    intro uuid
    rw [Store.lookup, authorStore]
    exact lookup_addArticleRankFromJson store obj uuid
  have known : (middle.lookup (ranks.articleUuid obj)).isSome := by
    rw [lookup, if_pos rfl]
    rfl
  have arts : ∀ other, middle.arts other = store.arts other := by
    intro other
    rw [Store.arts, sortedArts]
    rfl
  have before : Kept middle := by
    refine ⟨fun other rank inside => ?_, fun uuid other there => ?_, fun other null => ?_⟩
    · rw [lookup]
      split
      · rfl
      · exact kept.known other rank (arts other ▸ inside)
    · rw [unResolved, Properties.get_delete] at there
      split at there
      case isTrue => cases there
      case isFalse apart =>
        rw [lookup, if_neg apart]
        exact kept.unknown uuid other there
    · rw [articleRank]
      exact kept.plain other (sortedArts ▸ null)
  refine ⟨inserted.kept before known, inserted.consistent known ?_
    (fun other uuid apart there => ?_) fun other => arts other ▸ consistent.sorted other⟩
  · exact ⟨by rw [arts]; exact can.new, by rw [arts]; exact can.dated⟩
  · rw [Store.Lists, articleRank, arts] at there
    have fits := consistent.fits other uuid there
    by_cases here : uuid = ranks.articleUuid obj
    · subst here
      have mine := (fits_of_unknown unknown).mp fits
      exact absurd rfl (apart (Option.some.inj (mine.symm.trans waiting)))
    · refine (fits_congr (by rw [lookup, if_neg here]) (by rw [arts]) fun _ => ?_).mpr fits
      rw [unResolved, Properties.get_delete, if_neg here]

/-- An article comes. -/
theorem Kept.itemChanged (kept : Kept store) (consistent : store.Consistent) {index : Index}
    {storeKind : String} {article : Changed ranks}
    (can : store.CanChange index storeKind article)
    (changed : store.itemChanged index storeKind article = some next) :
    Kept next ∧ next.Consistent := by
  obtain ⟨articleUuid, tagName, obj, rfl⟩ := article
  unfold Store.CanChange Store.rankOf at can
  unfold Store.itemChanged Store.rankOf at changed
  cases found : store.lookup (ranks.articleUuid obj) with
  | some rank =>
      have same := articleUuid_of_lookup found
      have none : Properties.get store.unResolved (ranks.articleUuid obj) = none := by
        by_contra waiting
        obtain ⟨tag, waiting⟩ := Option.ne_none_iff_exists'.mp waiting
        cases found.symm.trans (kept.unknown _ tag waiting)
      simp only [found, none, Option.none_or] at can changed
      split at changed
      case h_1 tag indexed =>
        have known : (store.lookup (ranks.articleUuid rank)).isSome := by
          rw [same, found]
          rfl
        have inserted := inserted_of_insertArticleRank changed
        exact ⟨inserted.kept kept known, inserted.consistent known (can tag indexed)
          (fun other uuid _ => consistent.fits other uuid) consistent.sorted⟩
      case h_2 =>
        cases changed
        exact ⟨kept, consistent⟩
  | none =>
      cases waiting : Properties.get store.unResolved (ranks.articleUuid obj) with
      | some tag =>
          simp only [found, waiting, Option.some_or] at can changed
          rw [Store.resolveArticleRank, if_pos rfl] at changed
          exact kept.resolve consistent found waiting (can tag rfl) changed rfl rfl rfl rfl
      | none =>
          simp only [found, waiting, Option.none_or] at can changed
          obtain ⟨still, fits⟩ := kept.addArticleRankFromJson consistent fun _ => waiting
          split at changed
          case h_1 tag indexed =>
            have known : (Store.lookup
                { store with authorStore := store.authorStore.addArticleRankFromJson obj }
                  (ranks.articleUuid obj)).isSome := by
              rw [lookup_addArticleRankFromJson, if_pos rfl]
              rfl
            have inserted := inserted_of_insertArticleRank changed
            exact ⟨inserted.kept still known, inserted.consistent known
              ⟨(can tag indexed).new, (can tag indexed).dated⟩
              (fun other uuid _ => fits.fits other uuid) fits.sorted⟩
          case h_2 =>
            cases changed
            exact ⟨still, fits⟩

/-! ## Runs -/

/-- Turns that each keep to it. -/
theorem keeps_foldlM {Item : Type} {turn : Store ranks → Item → Option (Store ranks)}
    {meets : Store ranks → Item → Prop}
    (keeps : ∀ {store next : Store ranks} {item : Item}, Kept store → store.Consistent →
      meets store item → turn store item = some next → Kept next ∧ next.Consistent)
    (items : List Item) : ∀ {store next : Store ranks}, Kept store → store.Consistent →
      MeetsEach turn meets store items → items.foldlM turn store = some next →
        Kept next ∧ next.Consistent := by
  induction items with
  | nil =>
      intro store next kept consistent _ done
      cases done
      exact ⟨kept, consistent⟩
  | cons item items ih =>
      intro store next kept consistent meets done
      rw [List.foldlM_cons] at done
      obtain ⟨middle, turned, rest⟩ := Option.bind_eq_some_iff.mp done
      obtain ⟨still, fits⟩ := keeps kept consistent meets.1 turned
      exact ih still fits (meets.2 middle turned) rest

/-- **One call.** -/
theorem Kept.call (kept : Kept store) (consistent : store.Consistent) {call : Call ranks}
    (meets : Meets store call) (called : store.call call = some next) :
    Kept next ∧ next.Consistent := by
  cases call with
  | newArtTag articleRank =>
      cases meets
      cases called
      exact kept.newArtTag_nil consistent
  | addTag articleRank => exact kept.addTag consistent meets called
  | sortArticles tag =>
      obtain ⟨-, sorted⟩ := Option.ite_none_right_eq_some.mp called
      exact kept.sortArticles_again consistent sorted
  | addArticleRank tag artUuid =>
      obtain ⟨-, added⟩ := Option.ite_none_right_eq_some.mp called
      cases artUuid with
      | none =>
          cases added
          exact ⟨kept, consistent⟩
      | some uuid => exact kept.addArticleRank consistent (meets uuid rfl) added
  | updateTag tag articleRank =>
      obtain ⟨-, updated⟩ := Option.ite_none_right_eq_some.mp called
      refine keeps_foldlM (fun {store next uuid} kept consistent can turned => ?_) articleRank kept
        consistent meets updated
      unfold Store.updateTurn at turned
      split at turned
      case isTrue new => exact kept.addArticleRank consistent (can new) turned
      case isFalse =>
        cases turned
        exact ⟨kept, consistent⟩
  | updateArticles tag articles =>
      obtain ⟨-, updated⟩ := Option.ite_none_right_eq_some.mp called
      exact keeps_foldlM (fun kept consistent can added => kept.addArticleRank consistent can added)
        articles kept consistent meets updated
  | onItemsChanged index storeKind changeList =>
      exact keeps_foldlM (fun kept consistent can changed =>
        kept.itemChanged consistent can changed) changeList kept consistent meets called
  | addArticleRankFromJson obj =>
      cases called
      exact kept.addArticleRankFromJson consistent meets

private theorem Kept.consistentAll (kept : Kept store) (consistent : store.Consistent)
    (calls : List (Call ranks)) (meets : MeetsAll store calls) : ConsistentAll store calls := by
  induction calls generalizing store with
  | nil => exact consistent
  | cons call calls ih =>
      refine ⟨consistent, fun next called => ?_⟩
      obtain ⟨still, fits⟩ := kept.call consistent meets.1 called
      exact ih still fits (meets.2 next called)

theorem kept_init (authorStore : AuthorStore ranks) : Kept (init authorStore) where
  known := nofun
  unknown := nofun
  plain := fun _ _ => nofun

theorem consistent_init (authorStore : AuthorStore ranks) : (init authorStore).Consistent where
  fits := by
    rintro tag uuid (there | inside)
    · cases there
    · cases inside
  sorted := fun _ => List.Pairwise.nil

/-- **The articles of public tags.** If every call meets its condition, the ranks of each tag are in
its list once and by date after every call, and it waits for the other articles it lists. -/
theorem consistentAll_of_meetsAll (authorStore : AuthorStore ranks) (calls : List (Call ranks))
    (meets : MeetsAll (init authorStore) calls) : ConsistentAll (init authorStore) calls :=
  (kept_init authorStore).consistentAll (consistent_init authorStore) calls meets

/-- A tag with two articles, whose ranks arrive. -/
theorem consistentAll_of_meetsAll_two :
    ConsistentAll
      (init (⟨Repository.empty, nofun⟩ : AuthorStore
        ⟨fun rank => if rank = 0 then "first" else "second", fun rank => some rank⟩))
      [.addTag ["first", "second"],
        .onItemsChanged ⟨fun _ => none, fun _ => none⟩ "blog"
          [⟨"first", none, 0, rfl⟩, ⟨"second", none, 1, rfl⟩]] := by
  refine consistentAll_of_meetsAll _ _ ⟨⟨by decide, by decide⟩, ?_⟩
  intro next called
  obtain rfl := Option.some.inj called
  refine ⟨⟨?_, ?_⟩, fun _ _ => trivial⟩
  · intro tag same
    obtain rfl := Option.some.inj same
    exact ⟨by decide, by decide⟩
  · intro next called
    obtain rfl := Option.some.inj called
    refine ⟨?_, fun _ _ => trivial⟩
    intro tag same
    obtain rfl := Option.some.inj same
    exact ⟨by decide, by decide⟩

/-- Two tags list an article before its rank is known. The second one waits in place of the first
one. -/
theorem shared_not_consistent :
    ¬ ConsistentAll
      (init (⟨Repository.empty, nofun⟩ : AuthorStore ⟨fun _ => "post", fun _ => some 1⟩))
      [.addTag ["post"], .addTag ["post"]] := by
  rintro ⟨-, later⟩
  have after := (later _ rfl).2 _ rfl
  have waits := (fits_of_unknown rfl).mp (after.fits 0 "post" (.inl rfl))
  exact absurd waits (by decide)

end Tvntd.TagArticles
