import Tvntd.Front.AuthorTagMgr
import Tvntd.Lib.Chained
import Mathlib.Data.List.Perm.Basic

/-! # Views of the tags of an author

A call keeps the views of the tags and articles in step exactly if it does not
touch what a view was made of. The names are made again for every new tag, so
only a removal leaves them behind; the object of all ranks is never made again.
-/

namespace Tvntd.AuthorTags

open SortedArray Function

/-- A list with the elements of another one, which has each once. -/
theorem perm_iff_mem {Elm : Type} {list other : List Elm} (nodup : list.Nodup) :
    list.Perm other ∧ other.Nodup ↔ (∀ elm, elm ∈ list ↔ elm ∈ other) ∧ other.Nodup :=
  and_congr_left fun single => List.perm_ext_iff_of_nodup nodup single

/-- What every call keeps that meets its condition. -/
structure Kept (mgr : AuthorTagMgr) : Prop where
  named : ∀ name tag, Properties.get mgr.authorTags name = some tag →
    (mgr.tag tag).tagName = name ∧ tag < mgr.tagsMade
  keyed : ∀ tag ∈ Properties.values mgr.authorTags, ∀ uuid rank,
    Properties.get (mgr.tag tag).articles uuid = some rank →
      (mgr.brief rank).articleUuid = uuid ∧ rank < mgr.ranksMade
  own : ∀ tag ∈ Properties.values mgr.authorTags, ∀ other ∈ Properties.values mgr.authorTags,
    ∀ rank, rank ∈ Properties.values (mgr.tag tag).articles →
      rank ∈ Properties.values (mgr.tag other).articles → tag = other

variable {mgr next : AuthorTagMgr} {tag authorTag : TagRef} {rank : RankRef}

private theorem mem_heldRanks : rank ∈ mgr.heldRanks ↔ ∃ tag ∈ Properties.values mgr.authorTags,
    rank ∈ Properties.values (mgr.tag tag).articles := List.mem_flatMap

private theorem Kept.nodup_tags (kept : Kept mgr) : (Properties.values mgr.authorTags).Nodup :=
  Properties.nodup_values (fun tag => (mgr.tag tag).tagName)
    fun name tag found => (kept.named name tag found).1

theorem Kept.nodup_articles (kept : Kept mgr) (inside : tag ∈ Properties.values mgr.authorTags) :
    (Properties.values (mgr.tag tag).articles).Nodup :=
  Properties.nodup_values (fun rank => (mgr.brief rank).articleUuid)
    fun uuid rank found => (kept.keyed tag inside uuid rank found).1

theorem Kept.lt_of_held (kept : Kept mgr) (held : rank ∈ mgr.heldRanks) : rank < mgr.ranksMade := by
  obtain ⟨tag, inside, there⟩ := mem_heldRanks.mp held
  obtain ⟨uuid, found⟩ := Properties.mem_values.mp there
  exact (kept.keyed tag inside uuid rank found).2

private theorem Consistent.mem_sortedTags (consistent : Consistent mgr) :
    tag ∈ mgr.sortedTags ↔ tag ∈ Properties.values mgr.authorTags :=
  consistent.tags.1.mem_iff.symm

/-- A tag of the name that is in the list of tags is the tag of the name. -/
theorem Kept.found_of_sorted (kept : Kept mgr) (consistent : Consistent mgr)
    (inside : tag ∈ mgr.sortedTags) :
    Properties.get mgr.authorTags (mgr.tag tag).tagName = some tag := by
  obtain ⟨name, found⟩ := Properties.mem_values.mp (consistent.mem_sortedTags.mp inside)
  rw [(kept.named name tag found).1, found]

/-! ## All ranks -/

/-- No two ranks that are held are of one article. -/
def Distinct (mgr : AuthorTagMgr) : Prop :=
  ∀ rank ∈ mgr.heldRanks, ∀ other ∈ mgr.heldRanks,
    (mgr.brief rank).articleUuid = (mgr.brief other).articleUuid → rank = other

private theorem all_iff_of_none (fresh : mgr.allArtRanks = none) :
    (∀ rank, rank ∈ Properties.values mgr.getAllArticleRanks.2 ↔ rank ∈ mgr.heldRanks) ↔
      Distinct mgr := by
  have made : mgr.getAllArticleRanks.2 =
      Properties.collect (fun artTag => (mgr.brief artTag).articleUuid) mgr.heldRanks := by
    rw [AuthorTagMgr.getAllArticleRanks, fresh]
  rw [made]
  exact Properties.mem_collect_iff _ _

private theorem getAllArticleRanks_of_some {allRanks : Properties String RankRef}
    (kept : mgr.allArtRanks = some allRanks) : mgr.getAllArticleRanks = (mgr, allRanks) := by
  rw [AuthorTagMgr.getAllArticleRanks, kept]

/-- What is asked of the object of all ranks depends on these only. -/
theorem all_congr (ranks : next.allArtRanks = mgr.allArtRanks)
    (held : ∀ rank, rank ∈ next.heldRanks ↔ rank ∈ mgr.heldRanks)
    (uuids : ∀ rank ∈ mgr.heldRanks,
      (next.brief rank).articleUuid = (mgr.brief rank).articleUuid) :
    (∀ rank, rank ∈ Properties.values next.getAllArticleRanks.2 ↔ rank ∈ next.heldRanks) ↔
      ∀ rank, rank ∈ Properties.values mgr.getAllArticleRanks.2 ↔ rank ∈ mgr.heldRanks := by
  cases before : mgr.allArtRanks with
  | none =>
      rw [all_iff_of_none before, all_iff_of_none (ranks.trans before)]
      constructor
      · intro distinct rank inside other there same
        rw [← uuids rank inside, ← uuids other there] at same
        exact distinct rank ((held rank).mpr inside) other ((held other).mpr there) same
      · intro distinct rank inside other there same
        rw [held] at inside there
        rw [uuids rank inside, uuids other there] at same
        exact distinct rank inside other there same
  | some allRanks =>
      rw [getAllArticleRanks_of_some before, getAllArticleRanks_of_some (ranks.trans before)]
      exact forall_congr' fun rank => by rw [held]

/-! ## A new tag -/

/-- What adding a tag of a new name does. -/
structure NewTag (mgr next : AuthorTagMgr) (name : String) : Prop where
  free : Properties.get mgr.authorTags name = none
  tagsMade : next.tagsMade = mgr.tagsMade + 1
  authorTags : next.authorTags = Properties.set mgr.authorTags name mgr.tagsMade
  others : ∀ tag, tag ≠ mgr.tagsMade → next.tag tag = mgr.tag tag
  tagName : (next.tag mgr.tagsMade).tagName = name
  articles : (next.tag mgr.tagsMade).articles = Repository.empty
  sortedArts : (next.tag mgr.tagsMade).sortedArts = []
  sortedTags : next.sortedTags.Perm (mgr.tagsMade :: mgr.sortedTags)
  strings : next.stringTags = next.sortedTags.map fun it => (next.tag it).tagName
  ranks : next.allArtRanks = mgr.allArtRanks
  brief : next.brief = mgr.brief
  ranksMade : next.ranksMade = mgr.ranksMade

/-- An inherited name adds nothing. -/
theorem addAuthorTag_spec {data : TagData} {added : Option TagRef}
    (called : mgr.addAuthorTag data = some (next, added)) :
    (next = mgr ∨ NewTag mgr next data.tagName) ∧
      (¬ Properties.Inherited data.tagName →
        ∃ tag, added = some tag ∧ Properties.get next.authorTags data.tagName = some tag) := by
  unfold AuthorTagMgr.addAuthorTag at called
  by_cases inherited : Properties.Inherited data.tagName
  · rw [if_pos inherited] at called
    cases called
    exact ⟨.inl rfl, fun own => absurd inherited own⟩
  rw [if_neg inherited] at called
  cases found : Properties.get mgr.authorTags data.tagName with
  | some before =>
      simp only [found, Option.some.injEq, Prod.mk.injEq] at called
      obtain ⟨rfl, rfl⟩ := called
      exact ⟨.inl rfl, fun _ => ⟨before, rfl, found⟩⟩
  | none =>
      simp only [found] at called
      obtain ⟨sortedTags, inserted, same⟩ := Option.map_eq_some_iff.mp called
      cases same
      have made : update mgr.tag mgr.tagsMade
          ⟨data.tagName, data.rank, Repository.empty, []⟩ mgr.tagsMade =
            ⟨data.tagName, data.rank, Repository.empty, []⟩ := update_self ..
      refine ⟨.inr ⟨found, rfl, rfl, ?_, ?_, ?_, ?_, insertSorted_perm inserted, rfl, rfl, rfl,
        rfl⟩, fun _ => ⟨_, rfl, Properties.get_set_self _ _ _⟩⟩
      · exact fun other apart => update_of_ne apart _ _
      · exact congrArg AuthorTag.tagName made
      · exact congrArg AuthorTag.articles made
      · exact congrArg AuthorTag.sortedArts made

namespace NewTag

variable {name : String} (new : NewTag mgr next name) (kept : Kept mgr)

include new

theorem mem_values : tag ∈ Properties.values next.authorTags ↔
    tag = mgr.tagsMade ∨ tag ∈ Properties.values mgr.authorTags := by
  rw [new.authorTags]
  exact Properties.mem_values_set_of_fresh new.free

include kept

omit new in
theorem fresh : mgr.tagsMade ∉ Properties.values mgr.authorTags := by
  intro inside
  obtain ⟨other, there⟩ := Properties.mem_values.mp inside
  exact Nat.lt_irrefl _ (kept.named other _ there).2

theorem same (inside : tag ∈ Properties.values mgr.authorTags) : next.tag tag = mgr.tag tag := by
  refine new.others tag ?_
  rintro rfl
  exact fresh kept inside

/-- The new tag has no articles. -/
theorem listed (inside : tag ∈ Properties.values next.authorTags)
    (there : rank ∈ Properties.values (next.tag tag).articles) :
    tag ∈ Properties.values mgr.authorTags ∧ rank ∈ Properties.values (mgr.tag tag).articles := by
  rcases new.mem_values.mp inside with rfl | old
  · rw [new.articles] at there
    cases there
  · exact ⟨old, new.same kept old ▸ there⟩

theorem held : rank ∈ next.heldRanks ↔ rank ∈ mgr.heldRanks := by
  rw [mem_heldRanks, mem_heldRanks]
  constructor
  · rintro ⟨tag, inside, there⟩
    exact ⟨tag, new.listed kept inside there⟩
  · rintro ⟨tag, inside, there⟩
    exact ⟨tag, new.mem_values.mpr (.inr inside), (new.same kept inside).symm ▸ there⟩

theorem keeps : Kept next where
  named := by
    intro other tag found
    rw [new.authorTags, Properties.get_set] at found
    split at found
    case isTrue here =>
      cases found
      exact ⟨new.tagName.trans here.symm, new.tagsMade ▸ Nat.lt_succ_self _⟩
    case isFalse apart =>
      have before := kept.named other tag found
      rw [new.same kept (Properties.mem_values_of_get found), new.tagsMade]
      exact ⟨before.1, Nat.lt_succ_of_lt before.2⟩
  keyed := by
    intro tag inside uuid rank found
    have listed := new.listed kept inside (Properties.mem_values_of_get found)
    rw [new.same kept listed.1] at found
    rw [new.brief, new.ranksMade]
    exact kept.keyed tag listed.1 uuid rank found
  own := by
    intro tag inside other there rank left right
    obtain ⟨first, held⟩ := new.listed kept inside left
    obtain ⟨second, also⟩ := new.listed kept there right
    exact kept.own tag first other second rank held also

theorem consistent (consistent : Consistent mgr) : Consistent next where
  tags := by
    refine (perm_iff_mem (new.keeps kept).nodup_tags).mpr ⟨fun tag => ?_, ?_⟩
    · rw [new.mem_values, new.sortedTags.mem_iff, List.mem_cons, consistent.mem_sortedTags]
    · refine new.sortedTags.nodup_iff.mpr (List.nodup_cons.mpr ⟨?_, consistent.tags.2⟩)
      rw [consistent.mem_sortedTags]
      exact fresh kept
  strings := new.strings
  articles := by
    intro tag inside
    rcases List.mem_cons.mp (new.sortedTags.mem_iff.mp inside) with rfl | old
    · rw [new.articles, new.sortedArts]
      exact ⟨.refl _, List.nodup_nil⟩
    · rw [new.same kept (consistent.mem_sortedTags.mp old)]
      exact consistent.articles tag old
  all := (all_congr new.ranks (fun _ => new.held kept) fun rank _ => by rw [new.brief]).mpr
    consistent.all

end NewTag

/-! ## Ranks of articles -/

/-- New data for a rank of the same article. -/
theorem Kept.updateBrief (kept : Kept mgr) (consistent : Consistent mgr) {fields : ArticleBrief}
    (same : (mgr.brief rank).articleUuid = fields.articleUuid) :
    Kept { mgr with brief := update mgr.brief rank fields } ∧
      Consistent { mgr with brief := update mgr.brief rank fields } := by
  have uuids : ∀ other, (update mgr.brief rank fields other).articleUuid =
      (mgr.brief other).articleUuid := by
    intro other
    by_cases here : other = rank
    · rw [here, update_self, same]
    · rw [update_of_ne here]
  refine ⟨⟨kept.named, ?_, kept.own⟩, consistent.tags, consistent.strings, consistent.articles, ?_⟩
  · intro tag inside uuid other there
    obtain ⟨keyed, made⟩ := kept.keyed tag inside uuid other there
    exact ⟨(uuids other).trans keyed, made⟩
  · exact (@all_congr mgr { mgr with brief := update mgr.brief rank fields } rfl
      (fun _ => Iff.rfl) fun other _ => uuids other).mpr consistent.all

/-- What adding a rank of an article does that the tag does not have. -/
structure NewRank (mgr next : AuthorTagMgr) (authorTag : TagRef) (fields : ArticleBrief) :
    Prop where
  free : Properties.get (mgr.tag authorTag).articles fields.articleUuid = none
  ranksMade : next.ranksMade = mgr.ranksMade + 1
  brief : next.brief = update mgr.brief mgr.ranksMade fields
  articles : (next.tag authorTag).articles =
    Properties.set (mgr.tag authorTag).articles fields.articleUuid mgr.ranksMade
  sortedArts : (next.tag authorTag).sortedArts.Perm
    (mgr.ranksMade :: (mgr.tag authorTag).sortedArts)
  tagNames : ∀ tag, (next.tag tag).tagName = (mgr.tag tag).tagName
  others : ∀ tag, tag ≠ authorTag → next.tag tag = mgr.tag tag
  tagsMade : next.tagsMade = mgr.tagsMade
  authorTags : next.authorTags = mgr.authorTags
  sortedTags : next.sortedTags = mgr.sortedTags
  strings : next.stringTags = mgr.stringTags
  ranks : next.allArtRanks = mgr.allArtRanks

private theorem tagAddArticleRank_spec {json : RankData}
    (own : ¬ Properties.Inherited json.fields.articleUuid)
    (added : mgr.tagAddArticleRank authorTag json = some next) :
    (∃ rank, Properties.get (mgr.tag authorTag).articles json.fields.articleUuid = some rank ∧
      (next = mgr ∨ next = { mgr with brief := update mgr.brief rank json.fields })) ∨
    NewRank mgr next authorTag json.fields := by
  rw [AuthorTagMgr.tagAddArticleRank, if_neg own] at added
  cases found : Properties.get (mgr.tag authorTag).articles json.fields.articleUuid with
  | some rank =>
      simp only [found, Option.some.injEq] at added
      refine .inl ⟨rank, rfl, ?_⟩
      split at added
      · exact .inl added.symm
      · exact .inr added.symm
  | none =>
      have made : update mgr.brief mgr.ranksMade json.fields mgr.ranksMade =
          json.fields := update_self ..
      simp only [found, AuthorTagMgr.tagAddArticleRankObj, made, own, if_false] at added
      obtain ⟨sortedArts, inserted, same⟩ := Option.map_eq_some_iff.mp added
      cases same
      have tag : update mgr.tag authorTag { mgr.tag authorTag with
          articles := Properties.set (mgr.tag authorTag).articles json.fields.articleUuid
            mgr.ranksMade
          sortedArts := sortedArts } authorTag = { mgr.tag authorTag with
          articles := Properties.set (mgr.tag authorTag).articles json.fields.articleUuid
            mgr.ranksMade
          sortedArts := sortedArts } := update_self ..
      refine .inr ⟨found, rfl, rfl, congrArg AuthorTag.articles tag, ?_, ?_, ?_,
        rfl, rfl, rfl, rfl, rfl⟩
      · exact (congrArg AuthorTag.sortedArts tag) ▸ insertSorted_perm inserted
      · intro other
        by_cases here : other = authorTag
        · subst here
          have same := congrArg AuthorTag.tagName tag
          exact same
        · exact congrArg AuthorTag.tagName (update_of_ne here _ _)
      · exact fun other apart => update_of_ne apart _ _

namespace NewRank

variable {fields : ArticleBrief} (new : NewRank mgr next authorTag fields) (kept : Kept mgr)
  (there : authorTag ∈ Properties.values mgr.authorTags)

include new

private theorem mem_articles : rank ∈ Properties.values (next.tag tag).articles ↔
    tag = authorTag ∧ rank = mgr.ranksMade ∨ rank ∈ Properties.values (mgr.tag tag).articles := by
  by_cases here : tag = authorTag
  · subst here
    rw [new.articles, Properties.mem_values_set_of_fresh new.free]
    simp
  · rw [new.others tag here]
    simp [here]

private theorem brief_of_ne (apart : rank ≠ mgr.ranksMade) : next.brief rank = mgr.brief rank := by
  rw [new.brief]
  exact update_of_ne apart _ _

private theorem brief_new : next.brief mgr.ranksMade = fields := by
  rw [new.brief]
  exact update_self ..

theorem held (there : authorTag ∈ Properties.values mgr.authorTags) :
    rank ∈ next.heldRanks ↔ rank = mgr.ranksMade ∨ rank ∈ mgr.heldRanks := by
  rw [mem_heldRanks, mem_heldRanks, new.authorTags]
  constructor
  · rintro ⟨tag, inside, listed⟩
    rcases new.mem_articles.mp listed with ⟨-, same⟩ | old
    · exact .inl same
    · exact .inr ⟨tag, inside, old⟩
  · rintro (same | ⟨tag, inside, old⟩)
    · exact ⟨authorTag, there, new.mem_articles.mpr (.inl ⟨rfl, same⟩)⟩
    · exact ⟨tag, inside, new.mem_articles.mpr (.inr old)⟩

include kept

omit new in
theorem fresh (held : rank ∈ mgr.heldRanks) : rank ≠ mgr.ranksMade :=
  Nat.ne_of_lt (kept.lt_of_held held)

theorem keeps : Kept next where
  named := by
    rw [new.authorTags, new.tagsMade]
    intro name tag found
    rw [new.tagNames]
    exact kept.named name tag found
  keyed := by
    rw [new.authorTags, new.ranksMade]
    intro tag inside uuid rank found
    have before : ∀ uuid rank, Properties.get (mgr.tag tag).articles uuid = some rank →
        (next.brief rank).articleUuid = uuid ∧ rank < mgr.ranksMade + 1 := by
      intro uuid rank found
      obtain ⟨keyed, made⟩ := kept.keyed tag inside uuid rank found
      rw [new.brief_of_ne (Nat.ne_of_lt made)]
      exact ⟨keyed, Nat.lt_succ_of_lt made⟩
    by_cases here : tag = authorTag
    · subst here
      rw [new.articles, Properties.get_set] at found
      split at found
      case isTrue same =>
        cases found
        rw [new.brief_new]
        exact ⟨same.symm, Nat.lt_succ_self _⟩
      case isFalse => exact before uuid rank found
    · rw [new.others tag here] at found
      exact before uuid rank found
  own := by
    rw [new.authorTags]
    intro tag inside other also rank left right
    have old : ∀ tag ∈ Properties.values mgr.authorTags,
        rank ∈ Properties.values (mgr.tag tag).articles → rank ≠ mgr.ranksMade :=
      fun tag inside listed => fresh kept (mem_heldRanks.mpr ⟨tag, inside, listed⟩)
    rcases new.mem_articles.mp left with ⟨rfl, made⟩ | first
    · rcases new.mem_articles.mp right with ⟨rfl, -⟩ | second
      · rfl
      · exact absurd made (old other also second)
    · rcases new.mem_articles.mp right with ⟨rfl, made⟩ | second
      · exact absurd made (old tag inside first)
      · exact kept.own tag inside other also rank first second

include there

/-- The object of all ranks has no place for the rank if it is there, or has one of the article. -/
theorem all_iff (all : ∀ rank, rank ∈ Properties.values mgr.getAllArticleRanks.2 ↔
      rank ∈ mgr.heldRanks) :
    (∀ rank, rank ∈ Properties.values next.getAllArticleRanks.2 ↔ rank ∈ next.heldRanks) ↔
      mgr.allArtRanks = none ∧
        ∀ other ∈ mgr.heldRanks, (mgr.brief other).articleUuid ≠ fields.articleUuid := by
  cases before : mgr.allArtRanks with
  | some allRanks =>
      rw [getAllArticleRanks_of_some before] at all
      rw [getAllArticleRanks_of_some (new.ranks.trans before)]
      refine iff_of_false (fun after => ?_) (fun both => nomatch both.1)
      have held := (all mgr.ranksMade).mp
        ((after mgr.ranksMade).mpr ((new.held there).mpr (.inl rfl)))
      exact fresh kept held rfl
  | none =>
      have distinct := (all_iff_of_none before).mp all
      rw [all_iff_of_none (new.ranks.trans before)]
      constructor
      · intro after
        refine ⟨rfl, fun other held same => ?_⟩
        have apart := fresh kept held
        refine apart (after other ((new.held there).mpr (.inr held)) mgr.ranksMade
          ((new.held there).mpr (.inl rfl)) ?_)
        rw [new.brief_of_ne apart, new.brief_new]
        exact same
      · rintro ⟨-, other⟩ first left second right same
        rcases (new.held there).mp left with rfl | left
        · rcases (new.held there).mp right with rfl | right
          · rfl
          · rw [new.brief_new, new.brief_of_ne (fresh kept right)] at same
            exact absurd same.symm (other second right)
        · rcases (new.held there).mp right with rfl | right
          · rw [new.brief_new, new.brief_of_ne (fresh kept left)] at same
            exact absurd same (other first left)
          · rw [new.brief_of_ne (fresh kept left), new.brief_of_ne (fresh kept right)] at same
            exact distinct first left second right same

private theorem consistent_iff (consistent : Consistent mgr) : Consistent next ↔
    mgr.allArtRanks = none ∧
      ∀ other ∈ mgr.heldRanks, (mgr.brief other).articleUuid ≠ fields.articleUuid := by
  rw [← new.all_iff kept there consistent.all]
  refine ⟨Consistent.all, fun all => ⟨?_, ?_, ?_, all⟩⟩
  · rw [new.authorTags, new.sortedTags]
    exact consistent.tags
  · rw [new.strings, new.sortedTags, consistent.strings]
    exact List.map_congr_left fun tag _ => (new.tagNames tag).symm
  · rw [new.sortedTags]
    intro tag inside
    have before := consistent.articles tag inside
    have old := consistent.mem_sortedTags.mp inside
    by_cases here : tag = authorTag
    · subst here
      refine (perm_iff_mem ((new.keeps kept).nodup_articles (new.authorTags ▸ old))).mpr
        ⟨fun rank => ?_, new.sortedArts.nodup_iff.mpr (List.nodup_cons.mpr ⟨?_, before.2⟩)⟩
      · rw [new.mem_articles, new.sortedArts.mem_iff, List.mem_cons, before.1.mem_iff]
        simp
      · rw [← before.1.mem_iff]
        exact fun listed => fresh kept (mem_heldRanks.mpr ⟨tag, old, listed⟩) rfl
    · rw [new.others tag here]
      exact before

end NewRank

/-! ## Removals -/

section Removals

variable {name : String} (kept : Kept mgr) (consistent : Consistent mgr)

include kept consistent

private theorem removeAuthorTag_eq_self {data : TagData}
    (absent : Properties.get mgr.authorTags data.tagName = none) :
    mgr.removeAuthorTag data = mgr := by
  have tags : mgr.sortedTags.eraseP (fun it => (mgr.tag it).tagName = data.tagName) =
      mgr.sortedTags := by
    refine List.eraseP_of_forall_not fun tag inside same => ?_
    have there := kept.found_of_sorted consistent inside
    rw [of_decide_eq_true same, absent] at there
    cases there
  rw [AuthorTagMgr.removeAuthorTag, Properties.delete_eq_self absent, tags]

/-- Removing a tag leaves its name behind. -/
theorem consistent_removeAuthorTag_iff (data : TagData) :
    Consistent (mgr.removeAuthorTag data) ↔ Properties.get mgr.authorTags data.tagName = none := by
  cases found : Properties.get mgr.authorTags data.tagName with
  | none =>
      rw [removeAuthorTag_eq_self kept consistent found]
      exact iff_of_true consistent rfl
  | some tag =>
      refine iff_of_false (fun after => ?_) nofun
      have inside := consistent.mem_sortedTags.mpr (Properties.mem_values_of_get found)
      have fewer : (mgr.removeAuthorTag data).sortedTags.length = mgr.sortedTags.length - 1 :=
        List.length_eraseP_of_mem inside (decide_eq_true (kept.named _ tag found).1)
      have names := congrArg List.length (after.strings.symm.trans consistent.strings)
      rw [List.length_map, List.length_map, fewer] at names
      have positive := List.length_pos_of_mem inside
      omega

private theorem removeArticleRank_eq_self {data : RankData} (absent : mgr.found data = none) :
    mgr.removeArticleRank data = mgr := by
  unfold AuthorTagMgr.removeArticleRank
  by_cases inherited : Properties.Inherited data.fields.tagName
  · exact if_pos inherited
  rw [if_neg inherited]
  cases found : Properties.get mgr.authorTags data.fields.tagName with
  | none => rfl
  | some authorTag =>
      have inside := Properties.mem_values_of_get found
      have free : Properties.get (mgr.tag authorTag).articles data.fields.articleUuid = none := by
        rw [AuthorTagMgr.found, if_neg inherited, found] at absent
        exact absent
      have arts : (mgr.tag authorTag).sortedArts.eraseP
          (fun it => (mgr.brief it).articleUuid = data.fields.articleUuid) =
            (mgr.tag authorTag).sortedArts := by
        refine List.eraseP_of_forall_not fun rank listed same => ?_
        have articles := consistent.articles authorTag (consistent.mem_sortedTags.mpr inside)
        obtain ⟨uuid, there⟩ := Properties.mem_values.mp (articles.1.mem_iff.mpr listed)
        rw [← (kept.keyed authorTag inside uuid rank there).1, of_decide_eq_true same,
          free] at there
        cases there
      simp only [AuthorTagMgr.tagRemoveArticleRank, Properties.delete_eq_self free, arts,
        update_eq_self]

end Removals

/-- What removing a rank does. -/
structure Without (mgr next : AuthorTagMgr) (authorTag : TagRef) (uuid : String) (rank : RankRef) :
    Prop where
  found : Properties.get (mgr.tag authorTag).articles uuid = some rank
  articles : (next.tag authorTag).articles = Properties.delete (mgr.tag authorTag).articles uuid
  sortedArts : (next.tag authorTag).sortedArts = (mgr.tag authorTag).sortedArts.eraseP
    fun it => (mgr.brief it).articleUuid = uuid
  tagNames : ∀ tag, (next.tag tag).tagName = (mgr.tag tag).tagName
  others : ∀ tag, tag ≠ authorTag → next.tag tag = mgr.tag tag
  brief : next.brief = mgr.brief
  tagsMade : next.tagsMade = mgr.tagsMade
  ranksMade : next.ranksMade = mgr.ranksMade
  authorTags : next.authorTags = mgr.authorTags
  sortedTags : next.sortedTags = mgr.sortedTags
  strings : next.stringTags = mgr.stringTags
  ranks : next.allArtRanks = mgr.allArtRanks

private theorem without_tagRemoveArticleRank {data : RankData}
    (found : Properties.get (mgr.tag authorTag).articles data.fields.articleUuid = some rank) :
    Without mgr (mgr.tagRemoveArticleRank authorTag data) authorTag data.fields.articleUuid
      rank := by
  have tag : (mgr.tagRemoveArticleRank authorTag data).tag authorTag = { mgr.tag authorTag with
      articles := Properties.delete (mgr.tag authorTag).articles data.fields.articleUuid
      sortedArts := (mgr.tag authorTag).sortedArts.eraseP fun it =>
        (mgr.brief it).articleUuid = data.fields.articleUuid } := update_self ..
  have others : ∀ tag, tag ≠ authorTag →
      (mgr.tagRemoveArticleRank authorTag data).tag tag = mgr.tag tag :=
    fun tag apart => update_of_ne apart _ _
  refine ⟨found, congrArg AuthorTag.articles tag, congrArg AuthorTag.sortedArts tag, ?_, others,
    rfl, rfl, rfl, rfl, rfl, rfl, rfl⟩
  intro other
  by_cases here : other = authorTag
  · rw [here, tag]
  · rw [others other here]

namespace Without

variable {uuid : String} (without : Without mgr next authorTag uuid rank) (kept : Kept mgr)
  (there : authorTag ∈ Properties.values mgr.authorTags)

include without kept there

private theorem mem_articles {other : RankRef} : other ∈ Properties.values (next.tag tag).articles ↔
    other ∈ Properties.values (mgr.tag tag).articles ∧ ¬ (tag = authorTag ∧ other = rank) := by
  by_cases here : tag = authorTag
  · subst here
    rw [without.articles, Properties.mem_values_delete (fun rank => (mgr.brief rank).articleUuid)
      (fun uuid rank found => (kept.keyed tag there uuid rank found).1) without.found]
    simp
  · rw [without.others tag here]
    simp [here]

/-- The rank was in no other tag. -/
theorem held {other : RankRef} : other ∈ next.heldRanks ↔ other ∈ mgr.heldRanks ∧ other ≠ rank := by
  rw [mem_heldRanks, mem_heldRanks, without.authorTags]
  constructor
  · rintro ⟨tag, inside, listed⟩
    obtain ⟨before, apart⟩ := (without.mem_articles kept there).mp listed
    refine ⟨⟨tag, inside, before⟩, ?_⟩
    rintro rfl
    exact apart ⟨kept.own tag inside authorTag there other before
      (Properties.mem_values_of_get without.found), rfl⟩
  · rintro ⟨⟨tag, inside, before⟩, apart⟩
    exact ⟨tag, inside, (without.mem_articles kept there).mpr ⟨before, fun both => apart both.2⟩⟩

theorem keeps : Kept next where
  named := by
    rw [without.authorTags, without.tagsMade]
    intro name tag found
    rw [without.tagNames]
    exact kept.named name tag found
  keyed := by
    rw [without.authorTags, without.brief, without.ranksMade]
    intro tag inside other rank found
    refine kept.keyed tag inside other rank ?_
    by_cases here : tag = authorTag
    · subst here
      rw [without.articles, Properties.get_delete] at found
      split at found
      case isTrue => cases found
      case isFalse => exact found
    · rw [without.others tag here] at found
      exact found
  own := by
    rw [without.authorTags]
    intro tag inside other also rank left right
    exact kept.own tag inside other also rank ((without.mem_articles kept there).mp left).1
      ((without.mem_articles kept there).mp right).1

private theorem consistent_iff (consistent : Consistent mgr) :
    Consistent next ↔ mgr.allArtRanks = none := by
  constructor
  · intro after
    cases before : mgr.allArtRanks with
    | none => rfl
    | some allRanks =>
        have all := consistent.all rank
        have gone := after.all rank
        rw [getAllArticleRanks_of_some before] at all
        rw [getAllArticleRanks_of_some (without.ranks.trans before), all,
          without.held kept there] at gone
        have held := mem_heldRanks.mpr
          ⟨authorTag, there, Properties.mem_values_of_get without.found⟩
        exact absurd rfl (gone.mp held).2
  · intro fresh
    have distinct := (all_iff_of_none fresh).mp consistent.all
    refine ⟨?_, ?_, ?_, (all_iff_of_none (without.ranks.trans fresh)).mpr ?_⟩
    · rw [without.authorTags, without.sortedTags]
      exact consistent.tags
    · rw [without.strings, without.sortedTags, consistent.strings]
      exact List.map_congr_left fun tag _ => (without.tagNames tag).symm
    · rw [without.sortedTags]
      intro tag inside
      have before := consistent.articles tag inside
      have old := consistent.mem_sortedTags.mp inside
      by_cases here : tag = authorTag
      · subst here
        have erased : (next.tag tag).sortedArts = (mgr.tag tag).sortedArts.erase rank := by
          rw [without.sortedArts]
          refine List.eraseP_eq_erase_of_unique (fun _ => decide_eq_true ?_)
            fun other listed same => ?_
          · exact (kept.keyed tag old uuid rank without.found).1
          · obtain ⟨own, found⟩ := Properties.mem_values.mp (before.1.mem_iff.mpr listed)
            have named := (kept.keyed tag old own other found).1
            rw [← named, of_decide_eq_true same, without.found, Option.some.injEq] at found
            exact found.symm
        refine (perm_iff_mem ((without.keeps kept there).nodup_articles
          (without.authorTags ▸ old))).mpr ⟨fun other => ?_, erased ▸ before.2.erase rank⟩
        rw [without.mem_articles kept there, erased, before.2.mem_erase_iff, before.1.mem_iff]
        simp [and_comm]
      · rw [without.others tag here]
        exact before
    · intro first left second right same
      rw [without.held kept there] at left right
      rw [without.brief] at same
      exact distinct first left.1 second right.1 same

end Without

/-! ## The calls -/

private theorem kept_new : Kept .new where
  named := nofun
  keyed := nofun
  own := nofun

private theorem consistent_new : Consistent .new where
  tags := ⟨.refl _, List.nodup_nil⟩
  strings := rfl
  articles := nofun
  all := fun _ => Iff.rfl

theorem Kept.addAuthorTag (kept : Kept mgr) (consistent : Consistent mgr) {data : TagData}
    {added : Option TagRef} (called : mgr.addAuthorTag data = some (next, added)) :
    Kept next ∧ Consistent next := by
  rcases (addAuthorTag_spec called).1 with rfl | new
  · exact ⟨kept, consistent⟩
  · exact ⟨new.keeps kept, new.consistent kept consistent⟩

/-- A rank that is added to a tag. -/
theorem Kept.tagAddArticleRank (kept : Kept mgr) (consistent : Consistent mgr) {data : RankData}
    (there : authorTag ∈ Properties.values mgr.authorTags)
    (added : mgr.tagAddArticleRank authorTag data = some next) :
    Kept next ∧ (Consistent next ↔
      (Properties.get (mgr.tag authorTag).articles data.fields.articleUuid = none ∧
        ¬ Properties.Inherited data.fields.articleUuid →
        mgr.allArtRanks = none ∧
          ∀ other ∈ mgr.heldRanks, (mgr.brief other).articleUuid ≠ data.fields.articleUuid)) := by
  by_cases inherited : Properties.Inherited data.fields.articleUuid
  · rw [AuthorTagMgr.tagAddArticleRank, if_pos inherited] at added
    cases added
    exact ⟨kept, iff_of_true consistent fun both => absurd inherited both.2⟩
  rcases tagAddArticleRank_spec inherited added with ⟨rank, found, same⟩ | new
  · have uuid := (kept.keyed authorTag there _ rank found).1
    have both : Kept next ∧ Consistent next := by
      rcases same with rfl | rfl
      · exact ⟨kept, consistent⟩
      · exact kept.updateBrief consistent uuid
    exact ⟨both.1, iff_of_true both.2 fun none => nomatch found.symm.trans none.1⟩
  · refine ⟨new.keeps kept, (new.consistent_iff kept there consistent).trans ?_⟩
    exact ⟨fun meets _ => meets, fun meets => meets ⟨new.free, inherited⟩⟩

theorem Kept.addArticleRank (kept : Kept mgr) (consistent : Consistent mgr) {data : RankData}
    (added : mgr.addArticleRank data = some next) :
    Kept next ∧ (Consistent next ↔ Meets mgr (.addArticleRank data)) := by
  unfold AuthorTagMgr.addArticleRank at added
  simp only [Meets, AuthorTagMgr.Adds, AuthorTagMgr.found]
  by_cases inherited : Properties.Inherited data.fields.tagName
  · rw [if_pos inherited] at added
    cases added
    exact ⟨kept, iff_of_true consistent fun adds => absurd inherited adds.2.1⟩
  simp only [inherited, if_false, not_false_eq_true, true_and] at added ⊢
  cases found : Properties.get mgr.authorTags data.fields.tagName with
  | some authorTag =>
      simp only [found] at added
      exact kept.tagAddArticleRank consistent (Properties.mem_values_of_get found) added
  | none =>
      simp only [found] at added
      obtain ⟨⟨middle, answer⟩, created, added⟩ := Option.bind_eq_some_iff.mp added
      obtain ⟨rfl | new, tagged⟩ := addAuthorTag_spec created
      · obtain ⟨authorTag, -, named⟩ := tagged inherited
        exact absurd (found.symm.trans named) (by simp)
      · obtain ⟨authorTag, rfl, named⟩ := tagged inherited
        simp only [Properties.set_eq_self named] at added
        obtain ⟨still, iff⟩ := (new.keeps kept).tagAddArticleRank (new.consistent kept consistent)
          (Properties.mem_values_of_get named) added
        have none : Properties.get (middle.tag authorTag).articles data.fields.articleUuid =
            none := by
          have same : authorTag = mgr.tagsMade := by
            rw [new.authorTags, Properties.get_set_self] at named
            exact (Option.some.inj named).symm
          rw [same, new.articles]
          exact Properties.get_empty _
        refine ⟨still, iff.trans ?_⟩
        rw [new.ranks, new.brief]
        simp only [new.held kept, none, Option.bind_none]

/-- **One call.** The views agree after it exactly if it meets its condition. -/
theorem Kept.call (kept : Kept mgr) (consistent : Consistent mgr) {call : Call}
    (called : mgr.call call = some next) :
    (Consistent next ↔ Meets mgr call) ∧ (Meets mgr call → Kept next) := by
  cases call with
  | getAuthorTag tagName tagRank =>
      obtain ⟨⟨after, tag⟩, got, rfl⟩ := Option.map_eq_some_iff.mp called
      have both : Kept after ∧ Consistent after := by
        unfold AuthorTagMgr.getAuthorTag at got
        split at got
        · cases got
          exact ⟨kept, consistent⟩
        split at got
        · cases got
          exact ⟨kept, consistent⟩
        · exact kept.addAuthorTag consistent got
      exact ⟨iff_of_true both.2 trivial, fun _ => both.1⟩
  | addAuthorTag data =>
      obtain ⟨⟨after, tag⟩, added, rfl⟩ := Option.map_eq_some_iff.mp called
      obtain ⟨still, after⟩ := kept.addAuthorTag consistent added
      exact ⟨iff_of_true after trivial, fun _ => still⟩
  | removeAuthorTag data =>
      cases called
      refine ⟨consistent_removeAuthorTag_iff kept consistent data, fun absent => ?_⟩
      rw [removeAuthorTag_eq_self kept consistent absent]
      exact kept
  | addArticleRank data =>
      obtain ⟨still, iff⟩ := kept.addArticleRank consistent called
      exact ⟨iff, fun _ => still⟩
  | removeArticleRank data =>
      cases called
      rw [Meets]
      cases found : mgr.found data with
      | none =>
          rw [removeArticleRank_eq_self kept consistent found]
          exact ⟨iff_of_true consistent fun there => absurd rfl there, fun _ => kept⟩
      | some rank =>
          unfold AuthorTagMgr.found at found
          by_cases inherited : Properties.Inherited data.fields.tagName
          · rw [if_pos inherited] at found
            cases found
          rw [if_neg inherited] at found
          obtain ⟨authorTag, named, there⟩ := Option.bind_eq_some_iff.mp found
          have without := without_tagRemoveArticleRank there
          have inside := Properties.mem_values_of_get named
          have same : mgr.removeArticleRank data = mgr.tagRemoveArticleRank authorTag data := by
            rw [AuthorTagMgr.removeArticleRank, if_neg inherited, named]
          rw [same, without.consistent_iff kept inside consistent]
          exact ⟨⟨fun fresh _ => fresh, fun meets => meets (Option.some_ne_none _)⟩,
            fun _ => without.keeps kept inside⟩
  | getAllArticleRanks =>
      cases called
      have ranks : mgr.getAllArticleRanks.1 = { mgr with
          allArtRanks := some mgr.getAllArticleRanks.2 } := by
        unfold AuthorTagMgr.getAllArticleRanks
        split
        case h_1 allRanks before =>
          simp only
          rw [← before]
        case h_2 => rfl
      rw [ranks]
      exact ⟨iff_of_true ⟨consistent.tags, consistent.strings, consistent.articles,
        consistent.all⟩ trivial, fun _ => ⟨kept.named, kept.keyed, kept.own⟩⟩

/-! ## Histories -/

theorem Kept.consistentAll_iff (kept : Kept mgr) (consistent : Consistent mgr)
    (calls : List Call) : ConsistentAll mgr calls ↔ MeetsAll mgr calls := by
  induction calls generalizing mgr with
  | nil => exact iff_of_true consistent trivial
  | cons call calls ih =>
      rw [ConsistentAll, MeetsAll, and_iff_right consistent]
      refine forall_congr' fun next => forall_congr' fun called => ?_
      obtain ⟨iff, keeps⟩ := kept.call consistent called
      constructor
      · intro all
        have after : Consistent next := by
          cases calls with
          | nil => exact all
          | cons => exact all.1
        have meets := iff.mp after
        exact ⟨meets, (ih (keeps meets) after).mp all⟩
      · rintro ⟨meets, later⟩
        exact (ih (keeps meets) (iff.mpr meets)).mpr later

/-- **The tags of an author.** Their views agree after every call of a history exactly if every call
meets its condition. -/
theorem consistentAll_iff_meetsAll (calls : List Call) :
    ConsistentAll .new calls ↔ MeetsAll .new calls :=
  kept_new.consistentAll_iff consistent_new calls

/-- A tag that is removed is still among the names. -/
theorem removed_not_consistent :
    ¬ ConsistentAll .new [.addAuthorTag ⟨"news", some 1⟩, .removeAuthorTag ⟨"news", none⟩] := by
  rintro ⟨-, later⟩
  have after := (later _ rfl).2 _ rfl
  exact absurd after.strings (by decide)

end Tvntd.AuthorTags
