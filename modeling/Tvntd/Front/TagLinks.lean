import Tvntd.Front.ArticleTagRuns
import Tvntd.Lib.Acyclic

/-! # Links between tags

A tag names its parent, and has a list of the tags below it; both are followed by
name, through the index. Neither has to agree with the other, and a tag that is
not in the index any more may still be in a list, where its name may lead to
another tag.
-/

namespace Tvntd.ArticleTagStore

open Edges Relation Function

/-- What the links between tags are made of. -/
structure Links where
  made : Nat
  tagName : Tag → String
  parentTag : Tag → Option String
  subTags : Tag → List Tag
  pubTagIndex : String → Option Tag

def Store.links (store : Store) : Links :=
  ⟨store.made, store.tagName, store.parentTag, store.subTags, store.pubTagIndex⟩

/-- The names that are left. -/
theorem map_removeArray (tagName : Tag → String) (array : List Tag) (tag : Tag) :
    (removeArray tagName array tag).map tagName = (array.map tagName).erase (tagName tag) := by
  rw [removeArray, List.erase_eq_eraseP', List.eraseP_map]
  rfl

namespace Links

section Relations

variable (links : Links)

def Live (tag : Tag) : Prop := Indexed links.pubTagIndex tag

/-- From a tag to its parent. -/
def Up (tag parent : Tag) : Prop :=
  ∃ name, links.parentTag tag = some name ∧ links.pubTagIndex name = some parent

/-- From a tag to one of its list. -/
def Sub (tag sub : Tag) : Prop := sub ∈ links.subTags tag

/-- From a tag of the index to the one that has the name of one of its list. -/
def Next (tag next : Tag) : Prop :=
  links.Live tag ∧ ∃ sub ∈ links.subTags tag, links.pubTagIndex (links.tagName sub) = some next

end Relations

/-- The tags are in the index under their names, a tag of the index is in the list of its parent
only, a list has a name once, and no links lead back. -/
structure Tied (links : Links) : Prop where
  made : ∀ name tag, links.pubTagIndex name = some tag → tag < links.made
  named : ∀ name tag, links.pubTagIndex name = some tag → links.tagName tag = name
  listed : ∀ tag sub, sub ∈ links.subTags tag → sub < links.made
  placed : ∀ tag sub, links.Live tag → links.Live sub → sub ∈ links.subTags tag →
    links.parentTag sub = some (links.tagName tag)
  apart : ∀ tag, links.Live tag → ((links.subTags tag).map links.tagName).Nodup
  parents : Acyclic links.Up
  subTags : Acyclic links.Sub
  nexts : Acyclic links.Next

variable {links : Links} {self parent : Tag}

namespace Tied

theorem lt_of_live (tied : Tied links) (live : links.Live self) : self < links.made := by
  obtain ⟨name, found⟩ := live
  exact tied.made name self found

theorem index_of_live (tied : Tied links) (live : links.Live self) :
    links.pubTagIndex (links.tagName self) = some self := by
  obtain ⟨name, found⟩ := live
  rw [tied.named name self found, found]

/-! ## Fewer links -/

theorem listFewer (tied : Tied links) {subTags : Tag → List Tag}
    (fewer : ∀ tag, (subTags tag).Sublist (links.subTags tag)) :
    Tied { links with subTags := subTags } where
  made := tied.made
  named := tied.named
  listed := fun tag sub inside => tied.listed tag sub ((fewer tag).subset inside)
  placed := fun tag sub live below inside =>
    tied.placed tag sub live below ((fewer tag).subset inside)
  apart := fun tag live => ((fewer tag).map links.tagName).nodup (tied.apart tag live)
  parents := tied.parents
  subTags := tied.subTags.mono fun tag _ inside => (fewer tag).subset inside
  nexts := tied.nexts.mono fun tag _ ⟨live, sub, inside, found⟩ =>
    ⟨live, sub, (fewer tag).subset inside, found⟩

theorem indexFewer (tied : Tied links) {pubTagIndex : String → Option Tag}
    (fewer : ∀ name tag, pubTagIndex name = some tag → links.pubTagIndex name = some tag) :
    Tied { links with pubTagIndex := pubTagIndex } := by
  have alive : ∀ tag, Indexed pubTagIndex tag → links.Live tag :=
    fun tag ⟨name, found⟩ => ⟨name, fewer name tag found⟩
  exact {
    made := fun name tag found => tied.made name tag (fewer name tag found)
    named := fun name tag found => tied.named name tag (fewer name tag found)
    listed := tied.listed
    placed := fun tag sub live below => tied.placed tag sub (alive tag live) (alive sub below)
    apart := fun tag live => tied.apart tag (alive tag live)
    parents := tied.parents.mono fun tag parent ⟨name, named, found⟩ =>
      ⟨name, named, fewer name parent found⟩
    subTags := tied.subTags
    nexts := tied.nexts.mono fun tag next ⟨live, sub, inside, found⟩ =>
      ⟨alive tag live, sub, inside, fewer _ next found⟩ }

/-! ## Tags that no link leads to -/

theorem grow (tied : Tied links) {made : Nat} (more : links.made ≤ made) :
    Tied { links with made := made } where
  made := fun name tag found => Nat.lt_of_lt_of_le (tied.made name tag found) more
  named := tied.named
  listed := fun tag sub inside => Nat.lt_of_lt_of_le (tied.listed tag sub inside) more
  placed := tied.placed
  apart := tied.apart
  parents := tied.parents
  subTags := tied.subTags
  nexts := tied.nexts

/-- A tag that is neither in the index nor in a list of the index can be given any name. -/
theorem rename (tied : Tied links) (gone : ¬ links.Live self)
    (unlisted : ∀ tag, links.Live tag → self ∉ links.subTags tag) (name : String) :
    Tied { links with tagName := update links.tagName self name } := by
  have others : ∀ tag, tag ≠ self →
      update links.tagName self name tag = links.tagName tag :=
    fun tag other => update_of_ne other _ _
  have inList : ∀ tag sub, links.Live tag → sub ∈ links.subTags tag →
      update links.tagName self name sub = links.tagName sub :=
    fun tag sub live inside => others sub fun same => unlisted tag live (same ▸ inside)
  have ofLive : ∀ tag, links.Live tag →
      update links.tagName self name tag = links.tagName tag :=
    fun tag live => others tag fun same => gone (same ▸ live)
  exact {
    made := tied.made
    named := fun name tag found => (ofLive tag ⟨name, found⟩).trans (tied.named name tag found)
    listed := tied.listed
    placed := fun tag sub live below inside =>
      (tied.placed tag sub live below inside).trans (congrArg some (ofLive tag live).symm)
    apart := by
      intro tag live
      have same := List.map_congr_left fun sub inside => inList tag sub live inside
      exact same ▸ tied.apart tag live
    parents := tied.parents
    subTags := tied.subTags
    nexts := tied.nexts.mono fun tag next ⟨live, sub, inside, found⟩ =>
      ⟨live, sub, inside, inList tag sub live inside ▸ found⟩ }

/-! ## New links -/

/-- A tag in no list of the index can be given a parent that is not below it. -/
theorem reparent (tied : Tied links) (parentTag : Option String)
    (unlisted : links.Live self → ∀ tag, links.Live tag → self ∉ links.subTags tag)
    (noReturn : ∀ name parent, parentTag = some name → links.pubTagIndex name = some parent →
      ¬ ReflTransGen links.Up parent self) :
    Tied { links with parentTag := update links.parentTag self parentTag } where
  made := tied.made
  named := tied.named
  listed := tied.listed
  placed := by
    intro tag sub live below inside
    have other : sub ≠ self := by
      rintro rfl
      exact unlisted below tag live inside
    exact (update_of_ne other _ _).trans (tied.placed tag sub live below inside)
  apart := tied.apart
  parents := by
    have edges : ∀ tag goal, Up { links with
          parentTag := update links.parentTag self parentTag } tag goal →
        links.Up tag goal ∨ tag = self ∧ ∃ name, parentTag = some name ∧
          links.pubTagIndex name = some goal := by
      rintro tag goal ⟨name, named, found⟩
      by_cases same : tag = self
      · exact .inr ⟨same, name, by simpa [same] using named, found⟩
      · exact .inl ⟨name, by simpa [same] using named, found⟩
    cases target : parentTag.bind links.pubTagIndex with
    | none =>
        refine tied.parents.mono fun tag goal step => ?_
        rcases edges tag goal step with old | ⟨-, name, given, found⟩
        · exact old
        · rw [given, Option.bind_some, found] at target
          cases target
    | some goal =>
        refine tied.parents.enter goal fun tag other step => ?_
        rcases edges tag other step with old | ⟨rfl, name, given, found⟩
        · exact .inl old
        · have same := target
          rw [given, Option.bind_some, found, Option.some.injEq] at same
          exact .inr ⟨same, same ▸ noReturn name other given found⟩
  subTags := tied.subTags
  nexts := tied.nexts

/-- A tag can be put into the list of its parent, if neither it nor the tag of its name leads to
the parent. -/
theorem list (tied : Tied links) (self parent : Tag) (made : self < links.made)
    (below : links.parentTag self = some (links.tagName parent))
    (noReturn : ¬ ReflTransGen links.Sub self parent)
    (noNext : ∀ next, links.pubTagIndex (links.tagName self) = some next →
      ¬ ReflTransGen links.Next next parent) :
    Tied { links with
      subTags := update links.subTags parent
        (removeArray links.tagName (links.subTags parent) self ++ [self]) } := by
  have listed : ∀ tag sub, sub ∈ update links.subTags parent
      (removeArray links.tagName (links.subTags parent) self ++ [self]) tag →
        sub ∈ links.subTags tag ∨ sub = self ∧ tag = parent := by
    intro tag sub inside
    rcases mem_update_iff.mp inside with ⟨rfl, inside⟩ | ⟨-, old⟩
    · rw [List.mem_append, List.mem_singleton] at inside
      exact inside.imp List.mem_of_mem_eraseP fun new => ⟨new, rfl⟩
    · exact .inl old
  have apart : ∀ tag, links.Live tag → ((update links.subTags parent
      (removeArray links.tagName (links.subTags parent) self ++ [self]) tag).map
        links.tagName).Nodup := by
    intro tag live
    have before := tied.apart tag live
    by_cases same : tag = parent
    · subst same
      rw [update_self, List.map_append, map_removeArray, List.map_singleton,
        List.nodup_append]
      refine ⟨before.erase _, List.nodup_singleton _, ?_⟩
      rintro name inside _ only rfl
      exact before.not_mem_erase (List.mem_singleton.mp only ▸ inside)
    · rw [update_of_ne same]
      exact before
  exact {
    made := tied.made
    named := tied.named
    listed := by
      intro tag sub inside
      rcases listed tag sub inside with old | ⟨rfl, -⟩
      · exact tied.listed tag sub old
      · exact made
    placed := by
      intro tag sub live under inside
      rcases listed tag sub inside with old | ⟨rfl, rfl⟩
      · exact tied.placed tag sub live under old
      · exact below
    apart := apart
    parents := tied.parents
    subTags := by
      have edges : ∀ tag sub, sub ∈ update links.subTags parent
          (removeArray links.tagName (links.subTags parent) self ++ [self]) tag →
            links.Sub tag sub ∨ sub = self ∧ ¬ ReflTransGen links.Sub self tag :=
        fun tag sub inside => (listed tag sub inside).imp_right
          fun ⟨new, place⟩ => ⟨new, place ▸ noReturn⟩
      exact tied.subTags.enter self edges
    nexts := by
      cases target : links.pubTagIndex (links.tagName self) with
      | none =>
          refine tied.nexts.mono fun tag next ⟨live, sub, inside, found⟩ => ?_
          rcases listed tag sub inside with old | ⟨rfl, rfl⟩
          · exact ⟨live, sub, old, found⟩
          · exact absurd (target.symm.trans found) (by simp)
      | some goal =>
          refine tied.nexts.enter goal fun tag next ⟨live, sub, inside, found⟩ => ?_
          rcases listed tag sub inside with old | ⟨rfl, rfl⟩
          · exact .inl ⟨live, sub, old, found⟩
          · exact .inr ⟨Option.some.inj (found.symm.trans target), noNext goal target⟩ }

/-- A tag can be put into the index under its name, if its way up does not lead to a tag below that
name, and no tag of its list leads to one of the index. -/
theorem index (tied : Tied links) (made : self < links.made)
    (free : links.pubTagIndex (links.tagName self) = none)
    (alone : ∀ sub ∈ links.subTags self, links.pubTagIndex (links.tagName sub) = none ∧
      links.tagName sub ≠ links.tagName self)
    (unlisted : ∀ tag, links.Live tag → self ∉ links.subTags tag)
    (apart : ((links.subTags self).map links.tagName).Nodup)
    (noReturn : ∀ tag, ReflTransGen links.Up self tag →
      links.parentTag tag ≠ some (links.tagName self)) :
    Tied { links with
      pubTagIndex := update links.pubTagIndex (links.tagName self) (some self) } := by
  have found : ∀ name tag, update links.pubTagIndex (links.tagName self) (some self) name =
      some tag → links.pubTagIndex name = some tag ∨ tag = self ∧ name = links.tagName self := by
    intro name tag found
    by_cases same : name = links.tagName self
    · subst same
      rw [update_self] at found
      exact .inr ⟨(Option.some.inj found).symm, rfl⟩
    · rw [update_of_ne same] at found
      exact .inl found
  have live : ∀ tag, Indexed (update links.pubTagIndex (links.tagName self) (some self))
      tag → links.Live tag ∨ tag = self := by
    rintro tag ⟨name, inside⟩
    exact (found name tag inside).imp (fun old => ⟨name, old⟩) And.left
  have gone : ¬ links.Live self := by
    rintro ⟨name, inside⟩
    rw [tied.named name self inside, inside] at free
    cases free
  have apartSelf : self ∉ links.subTags self := tied.subTags.irrefl self
  exact {
    made := by
      intro name tag inside
      rcases found name tag inside with old | ⟨rfl, -⟩
      · exact tied.made name tag old
      · exact made
    named := by
      intro name tag inside
      rcases found name tag inside with old | ⟨rfl, rfl⟩
      · exact tied.named name tag old
      · rfl
    listed := tied.listed
    placed := by
      intro tag sub under below inside
      rcases live sub below with old | rfl
      · rcases live tag under with upper | rfl
        · exact tied.placed tag sub upper old inside
        · have named := tied.index_of_live old
          rw [(alone sub inside).1] at named
          cases named
      · rcases live tag under with upper | rfl
        · exact absurd inside (unlisted tag upper)
        · exact absurd inside apartSelf
    apart := by
      intro tag under
      rcases live tag under with old | rfl
      · exact tied.apart tag old
      · exact apart
    parents := by
      refine tied.parents.enter self fun tag parent ⟨name, named, inside⟩ => ?_
      rcases found name parent inside with old | ⟨rfl, rfl⟩
      · exact .inl ⟨name, named, old⟩
      · exact .inr ⟨rfl, fun way => noReturn tag way named⟩
    subTags := tied.subTags
    nexts := by
      refine tied.nexts.enter self fun tag next ⟨under, sub, inside, leads⟩ => ?_
      have upper : links.Live tag := by
        refine (live tag under).resolve_right ?_
        rintro rfl
        rcases found _ next leads with old | ⟨-, same⟩
        · exact absurd old ((alone sub inside).1 ▸ nofun)
        · exact (alone sub inside).2 same
      rcases found _ next leads with old | ⟨rfl, -⟩
      · exact .inl ⟨upper, sub, inside, old⟩
      · refine .inr ⟨rfl, fun way => ?_⟩
        rcases way.cases_head with rfl | ⟨_, ⟨first, -⟩, -⟩
        · exact gone upper
        · exact gone first }

/-- A tag that is made is in no list, and has none. -/
theorem fresh (tied : Tied links) (name : String) (parentTag : Option String) :
    Tied { links with
      made := links.made + 1
      tagName := update links.tagName links.made name
      parentTag := update links.parentTag links.made parentTag
      subTags := update links.subTags links.made [] } := by
  have gone : ¬ links.Live links.made := fun live => Nat.lt_irrefl _ (tied.lt_of_live live)
  have unlisted : ∀ tag, links.Live tag → links.made ∉ links.subTags tag :=
    fun tag _ inside => Nat.lt_irrefl _ (tied.listed tag _ inside)
  have noParent : ∀ parent, links.Live parent → ¬ ReflTransGen links.Up parent links.made := by
    intro parent live way
    rcases way.cases_tail with rfl | ⟨_, -, name, -, found⟩
    · exact gone live
    · exact gone ⟨name, found⟩
  have fewer : ∀ tag, (update links.subTags links.made [] tag).Sublist
      (links.subTags tag) := by
    intro tag
    by_cases same : tag = links.made
    · rw [same, update_self]
      exact List.nil_sublist _
    · rw [update_of_ne same]
  have renamed := (tied.rename gone unlisted name).reparent parentTag
    (fun live => absurd live gone) fun name parent _ found => noParent parent ⟨name, found⟩
  exact (renamed.listFewer fewer).grow (Nat.le_succ _)

end Tied
end Links
end Tvntd.ArticleTagStore
