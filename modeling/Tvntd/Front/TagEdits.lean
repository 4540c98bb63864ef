import Tvntd.Front.TagWalks

/-! # Edits of the tags

The conditions of the calls keep the links between tags from leading back: every
call makes its new links into one tag, which must not lead to where they start.
-/

namespace Tvntd.ArticleTagStore

open Edges Relation Function

variable {store next : Store} {self parent tag : Tag}

/-! ## Removing -/

/-- What is left when tags are removed: their names, and no others in the index. -/
structure Removes (store next : Store) : Prop where
  names : next.tagName = store.tagName
  fewer : ∀ name tag, next.pubTagIndex name = some tag → store.pubTagIndex name = some tag

theorem Removes.refl (store : Store) : Removes store store := ⟨rfl, fun _ _ => id⟩

theorem Removes.trans {last : Store} (first : Removes store next) (second : Removes next last) :
    Removes store last :=
  ⟨second.names.trans first.names,
    fun name tag found => first.fewer name tag (second.fewer name tag found)⟩

/-- A name that is free stays free. -/
theorem Removes.free (removes : Removes store next) {name : String}
    (free : store.pubTagIndex name = none) : next.pubTagIndex name = none := by
  cases found : next.pubTagIndex name with
  | none => rfl
  | some tag =>
      rw [removes.fewer name tag found] at free
      cases free

private theorem removes_removeIndex (store : Store) (tag : Tag) :
    Removes store (store.removeIndex tag) := by
  refine ⟨rfl, fun name other found => ?_⟩
  dsimp only [Store.removeIndex] at found
  by_cases here : name = store.tagName tag
  · rw [here, update_self] at found
    cases found
  · rw [update_of_ne here] at found
    exact found

private theorem removes_foldl (store : Store) (tags : List Tag) :
    Removes store (tags.foldl Store.removeIndex store) := by
  induction tags generalizing store with
  | nil => exact .refl store
  | cons tag tags ih => exact (removes_removeIndex store tag).trans (ih _)

private theorem foldl_removeIndex_free (store : Store) {tags : List Tag} (inside : tag ∈ tags) :
    (tags.foldl Store.removeIndex store).pubTagIndex (store.tagName tag) = none := by
  induction tags generalizing store with
  | nil => cases inside
  | cons first tags ih =>
      rcases List.mem_cons.mp inside with rfl | later
      · refine (removes_foldl _ tags).free ?_
        exact update_self _ _ _
      · exact ih (store.removeIndex first) later

private theorem removes_leaveParent (store : Store) (tag : Tag) :
    Removes store (store.leaveParent tag) := by
  unfold Store.leaveParent Store.detachParent
  split
  · exact .refl store
  · split
    · exact .refl store
    · exact ⟨rfl, fun _ _ => id⟩

private theorem removes_removePublic (store : Store) (tag : Tag) :
    Removes store (store.removePublic tag) := by
  unfold Store.removePublic
  split
  · exact .refl store
  · exact ⟨rfl, fun _ _ => id⟩

/-- A tag that is removed leaves the index with the tags below it. -/
theorem removes_removeTag (store : Store) (self : Tag) : Removes store (store.removeTag self) ∧
    (store.removeTag self).pubTagIndex (store.tagName self) = none ∧
      ∀ sub ∈ store.subTags self,
        (store.removeTag self).pubTagIndex (store.tagName sub) = none := by
  have subs := removes_foldl store (store.subTags self)
  have left := subs.trans (removes_leaveParent _ self)
  have removed := removes_removeIndex
    (((store.subTags self).foldl Store.removeIndex store).leaveParent self) self
  have hidden := removes_removePublic
    ((((store.subTags self).foldl Store.removeIndex store).leaveParent self).removeIndex self) self
  refine ⟨left.trans (removed.trans hidden), hidden.free ?_, fun sub inside => ?_⟩
  · dsimp only [Store.removeIndex]
    rw [left.names]
    exact update_self _ _ _
  · exact ((removes_leaveParent _ self).trans (removed.trans hidden)).free
      (foldl_removeIndex_free store inside)

/-! ## Leaving a parent -/

/-- A tag without a parent that is there stays as it is. -/
theorem leaveParent_of_gone (gone : ∀ parent, ¬ store.links.Up self parent) :
    store.leaveParent self = store := by
  unfold Store.leaveParent
  cases up : store.parentTag self with
  | none => rfl
  | some name =>
      simp only
      cases found : store.pubTagIndex name with
      | none => rfl
      | some parent => exact absurd ⟨name, up, found⟩ (gone parent)

private theorem leaveParent_of_up (up : store.links.Up self parent) :
    store.leaveParent self = { store with
      subTags := update store.subTags parent
        (removeArray store.tagName (store.subTags parent) self)
      parentTag := update store.parentTag self none } := by
  obtain ⟨name, named, found⟩ := up
  have parents : store.parentTag self = some name := named
  have index : store.pubTagIndex name = some parent := found
  simp only [Store.leaveParent, parents, index]
  rfl

/-- What a tag leaves when it leaves its parent. -/
structure Leaves (store next : Store) (tag : Tag) : Prop where
  tied : next.links.Tied
  made : next.made = store.made
  tagName : next.tagName = store.tagName
  pubTagIndex : next.pubTagIndex = store.pubTagIndex
  above : ∀ parent, ¬ next.links.Up tag parent
  waits : ∀ name, next.parentTag tag = some name → store.parentTag tag = some name
  fewer : ∀ other, (next.subTags other).Sublist (store.subTags other)
  unlisted : store.links.Live tag → ∀ other, next.links.Live other → tag ∉ next.subTags other

private theorem Leaves.live_iff (leaves : Leaves store next self) (tag : Tag) :
    next.links.Live tag ↔ store.links.Live tag :=
  iff_of_eq (congrArg (Indexed · tag) leaves.pubTagIndex)

private theorem leaves_leaveParent (tied : store.links.Tied) (self : Tag) :
    Leaves store (store.leaveParent self) self := by
  by_cases above : ∃ parent, store.links.Up self parent
  · obtain ⟨parent, up⟩ := above
    rw [leaveParent_of_up up]
    have fewer : ∀ tag, (update store.subTags parent
        (removeArray store.tagName (store.subTags parent) self) tag).Sublist
          (store.subTags tag) := sublist_remove parent self
    have apart := tied.listFewer fewer
    have unlisted : store.links.Live self → ∀ tag, store.links.Live tag →
        self ∉ update store.subTags parent
          (removeArray store.tagName (store.subTags parent) self) tag := by
      intro live tag under inside
      rcases mem_update_iff.mp inside with ⟨rfl, left⟩ | ⟨other, listed⟩
      · have names := map_removeArray store.tagName (store.subTags tag) self
        have named := List.mem_map_of_mem (f := store.tagName) left
        rw [names] at named
        exact (tied.apart tag under).not_mem_erase named
      · obtain ⟨name, named, found⟩ := up
        have below := tied.placed tag self under live listed
        rw [named, Option.some.injEq] at below
        have index := tied.index_of_live under
        rw [← below, found, Option.some.injEq] at index
        exact other index.symm
    have root : update store.parentTag self none self = none := update_self ..
    refine ⟨?_, rfl, rfl, rfl, ?_, ?_, fewer, unlisted⟩
    · exact apart.reparent none (fun live tag under => unlisted live tag under) nofun
    · rintro other ⟨name, named, -⟩
      exact absurd (root.symm.trans named) nofun
    · intro name named
      exact absurd (root.symm.trans named) nofun
  · rw [not_exists] at above
    rw [leaveParent_of_gone above]
    refine ⟨tied, rfl, rfl, rfl, above, fun _ => id, fun _ => .refl _, ?_⟩
    intro live tag under inside
    exact above tag ⟨_, tied.placed tag self under live inside, tied.index_of_live under⟩

/-! ## Another parent -/

theorem Links.Tied.attachParent (tied : store.links.Tied) (made : self < store.made)
    (live : store.links.Live parent) (can : CanAttach store self parent)
    (unlisted : store.links.Live self → ∀ tag, store.links.Live tag → self ∉ store.subTags tag) :
    (store.attachParent self (some parent)).links.Tied := by
  have index := tied.index_of_live live
  have above := tied.reparent (some (store.tagName parent)) unlisted (by
    rintro name other given found
    cases given
    cases index.symm.trans found
    exact can.up)
  have listed := above.list self parent made (update_self ..)
    can.sub can.next
  rw [Store.attachParent, addSubTag_eq]
  exact listed

/-- A tag that has left its parent, with a name for a new one. -/
theorem Links.Tied.follow (tied : store.links.Tied) (made : self < store.made)
    {parentName : Option String} (can : CanFollow store self parentName) {name : String}
    (given : parentName = some name) :
    ((store.leaveParent self).attachParent self (store.pubTagIndex name)).links.Tied := by
  have leaves := leaves_leaveParent tied self
  cases found : store.pubTagIndex name with
  | none => exact leaves.tied
  | some parent =>
      exact leaves.tied.attachParent (leaves.made ▸ made)
        ((leaves.live_iff parent).mpr ⟨name, found⟩) (can name parent given found)
        fun live => leaves.unlisted ((leaves.live_iff self).mp live)

theorem Links.Tied.moveTag (tied : store.links.Tied) (made : self < store.made)
    {parent : Option String} (can : CanFollow store self (nonEmpty parent)) :
    (store.moveTag self parent).links.Tied := by
  unfold Store.moveTag
  cases given : nonEmpty parent with
  | none => exact tied
  | some name =>
      simp only [(leaves_leaveParent tied self).pubTagIndex]
      exact tied.follow made can given

theorem Links.Tied.changeParent (tied : store.links.Tied) {tagName : String}
    {parentName : Option String} (can : ∀ self, store.pubTagIndex tagName = some self →
      CanFollow store self (nonEmpty parentName)) :
    (store.changeParent tagName parentName).links.Tied := by
  unfold Store.changeParent
  cases found : store.pubTagIndex tagName with
  | none => exact tied
  | some self =>
      have leaves := leaves_leaveParent tied self
      have unlisted : (store.leaveParent self).links.Live self →
          ∀ tag, (store.leaveParent self).links.Live tag →
            self ∉ (store.leaveParent self).subTags tag :=
        fun live => leaves.unlisted ((leaves.live_iff self).mp live)
      cases given : nonEmpty parentName with
      | none => exact leaves.tied.reparent none unlisted (by simp)
      | some name =>
          have index := congrFun leaves.pubTagIndex name
          cases target : store.pubTagIndex name with
          | none =>
              simp only [index, target, Store.attachParent]
              refine leaves.tied.reparent (some name) unlisted fun other parent same there => ?_
              cases same
              exact absurd (target.symm.trans (index.symm.trans there)) (by simp)
          | some parent =>
              have attached := tied.follow (tied.made tagName self found) (can self found) given
              simp only [index, target, Store.attachParent, addSubTag_eq,
                update_idem] at attached ⊢
              exact attached

/-! ## Filing -/

/-- A tag outside of the index can be filed with its parent. -/
structure Fits (store : Store) (tag : Tag) : Prop where
  made : tag < store.made
  gone : ¬ store.links.Live tag
  unlisted : ∀ other, store.links.Live other → tag ∉ store.subTags other
  alone : ∀ sub ∈ store.subTags tag, store.pubTagIndex (store.tagName sub) = none ∧
    store.tagName sub ≠ store.tagName tag
  apart : ((store.subTags tag).map store.tagName).Nodup
  noReturn : store.pubTagIndex (store.tagName tag) = none →
    ∀ other, ReflTransGen store.links.Up tag other →
      store.parentTag other ≠ some (store.tagName tag)
  sub : ∀ parent, store.links.Up tag parent → ¬ ReflTransGen store.links.Sub tag parent
  next : ∀ other, store.pubTagIndex (store.tagName tag) = some other →
    ∀ parent, store.links.Up tag parent → ¬ ReflTransGen store.links.Next other parent

private theorem addIndex_links (added : store.addIndex tag = some next) :
    next.links = store.links ∧ store.pubTagIndex (store.tagName tag) ≠ none ∨
      next.links = { store.links with
        pubTagIndex := update store.pubTagIndex (store.tagName tag) (some tag) } ∧
      store.pubTagIndex (store.tagName tag) = none := by
  unfold Store.addIndex at added
  cases found : store.pubTagIndex (store.tagName tag) with
  | some other =>
      simp only [found, Option.some.injEq] at added
      exact .inl ⟨added ▸ rfl, nofun⟩
  | none =>
      simp only [found] at added
      obtain ⟨tags, -, rfl⟩ := Option.map_eq_some_iff.mp added
      exact .inr ⟨rfl, rfl⟩

/-- The tag goes into the list of its parent, if that is there. -/
theorem addPlace_links (placed : store.addPlace tag = some next) :
    next.links = store.links ∨ ∃ parent, store.links.Up tag parent ∧
      next.links = { store.links with
        subTags := update store.subTags parent
          (removeArray store.tagName (store.subTags parent) tag ++ [tag]) } := by
  unfold Store.addPlace at placed
  cases up : store.parentTag tag with
  | some name =>
      simp only [up] at placed
      cases found : store.pubTagIndex name with
      | none =>
          simp only [found, Option.some.injEq] at placed
          exact .inl (placed ▸ rfl)
      | some parent =>
          simp only [found, Option.some.injEq, addSubTag_eq] at placed
          exact .inr ⟨parent, ⟨name, up, found⟩, placed ▸ rfl⟩
  | none =>
      simp only [up] at placed
      split at placed
      · obtain ⟨tags, -, rfl⟩ := Option.map_eq_some_iff.mp placed
        exact .inl rfl
      · obtain ⟨tags, -, rfl⟩ := Option.map_eq_some_iff.mp placed
        exact .inl rfl

private theorem addSortedTagKind_links (added : store.addSortedTagKind tag = some next) :
    next.links = store.links := by
  obtain ⟨tags, -, rfl⟩ := Option.map_eq_some_iff.mp added
  rfl

theorem addRoute_links (routed : store.addRoute tag = some next) : next.links = store.links := by
  unfold Store.addRoute at routed
  split at routed
  · cases routed
    rfl
  · obtain ⟨top, -, rfl⟩ := Option.map_eq_some_iff.mp routed
    rfl

theorem addTag_eq_fileTag (store : Store) (tagObj : Tag) :
    store.addTag tagObj = (store.fileTag tagObj).bind fun store => store.addRoute tagObj := by
  simp only [Store.addTag, Store.fileTag, Option.bind_eq_bind, Option.bind_assoc]

theorem Links.Tied.addPlace {links : Links} (tied : links.Tied) (same : store.links = links)
    (made : tag < links.made)
    (sub : ∀ parent, links.Up tag parent → ¬ ReflTransGen links.Sub tag parent)
    (onward : ∀ other, links.pubTagIndex (links.tagName tag) = some other →
      ∀ parent, links.Up tag parent → ¬ ReflTransGen links.Next other parent)
    (placed : store.addPlace tag = some next) : next.links.Tied := by
  subst same
  rcases addPlace_links placed with same | ⟨parent, up, same⟩
  · exact same ▸ tied
  · obtain ⟨name, named, found⟩ := up
    rw [same]
    refine tied.list _ parent made ?_ (sub parent ⟨name, named, found⟩)
      fun other there => onward other there parent ⟨name, named, found⟩
    rw [tied.named name parent found]
    exact named

theorem Links.Tied.fileTag (tied : store.links.Tied) (fits : Fits store tag)
    (filed : store.fileTag tag = some next) : next.links.Tied := by
  obtain ⟨first, indexed, later⟩ := Option.bind_eq_some_iff.mp filed
  obtain ⟨second, placed, listed⟩ := Option.bind_eq_some_iff.mp later
  rw [addSortedTagKind_links listed]
  rcases addIndex_links indexed with ⟨same, -⟩ | ⟨same, free⟩
  · exact tied.addPlace same fits.made fits.sub fits.next placed
  · have kept := tied.index fits.made free fits.alone fits.unlisted fits.apart (fits.noReturn free)
    -- the name that was added is not that of the parent
    have up : ∀ parent, Up { store.links with
          pubTagIndex := update store.pubTagIndex (store.tagName tag) (some tag) }
        tag parent → store.links.Up tag parent := by
      rintro parent ⟨name, named, found⟩
      have other : name ≠ store.tagName tag := by
        rintro rfl
        exact fits.noReturn free tag .refl named
      exact ⟨name, named, (update_of_ne other _ _).symm.trans found⟩
    refine kept.addPlace same fits.made (fun parent above => fits.sub parent (up parent above)) ?_
      placed
    intro other found parent above way
    have index : update store.pubTagIndex (store.tagName tag) (some tag)
        (store.tagName tag) = some tag := update_self ..
    cases index.symm.trans found
    rcases way.cases_head with rfl | ⟨_, ⟨-, sub, inside, leads⟩, -⟩
    · obtain ⟨name, -, there⟩ := up tag above
      exact fits.gone ⟨name, there⟩
    · obtain ⟨gone, apart⟩ := fits.alone sub inside
      exact absurd (gone.symm.trans ((update_of_ne apart _ _).symm.trans leads)) nofun

/-- What is filed can be walked up, and has its links. -/
theorem Links.Tied.addTag (tied : store.links.Tied) (fits : Fits store tag) :
    (∀ filed, store.fileTag tag = some filed → (filed.topTag (filed.made + 1) tag).isSome) ∧
      ∀ next, store.addTag tag = some next → next.links.Tied := by
  refine ⟨fun filed done => (tied.fileTag fits done).topTag_ends tag, fun next added => ?_⟩
  rw [addTag_eq_fileTag] at added
  obtain ⟨filed, done, routed⟩ := Option.bind_eq_some_iff.mp added
  exact addRoute_links routed ▸ tied.fileTag fits done

/-! ## A new tag -/

private theorem Links.Tied.fits_newArtTag (tied : store.links.Tied) (data : TagInput)
    (can : CanFile store data.tagName (nonEmpty data.parentTag)) :
    Fits (store.newArtTag data).1 store.made := by
  have name : (store.newArtTag data).1.tagName store.made = data.tagName :=
    update_self ..
  have subs : (store.newArtTag data).1.subTags store.made = [] := update_self ..
  have gone : ¬ store.links.Live store.made :=
    fun live => Nat.lt_irrefl _ (tied.lt_of_live live)
  have others : ∀ other, other ≠ store.made →
      (store.newArtTag data).1.parentTag other = store.parentTag other :=
    fun other apart => update_of_ne apart _ _
  have root : (store.newArtTag data).1.parentTag store.made = nonEmpty data.parentTag :=
    update_self ..
  have up : ∀ parent, (store.newArtTag data).1.links.Up store.made parent →
      ∃ given, nonEmpty data.parentTag = some given ∧ store.pubTagIndex given = some parent := by
    rintro parent ⟨given, named, found⟩
    exact ⟨given, root.symm.trans named, found⟩
  -- the way up from a tag of the index stays there
  have climbs : ∀ parent tag, store.links.Live parent →
      ReflTransGen (store.newArtTag data).1.links.Up parent tag →
        ReflTransGen store.links.Up parent tag ∧ store.links.Live tag := by
    intro parent tag live way
    induction way with
    | refl => exact ⟨.refl, live⟩
    | @tail last tag _ step ih =>
        obtain ⟨given, named, found⟩ := step
        have apart : last ≠ store.made := by
          rintro rfl
          exact gone ih.2
        exact ⟨ih.1.tail ⟨given, (others last apart).symm.trans named, found⟩, given, found⟩
  refine ⟨Nat.lt_succ_self _, gone, ?_, ?_, ?_, ?_, ?_, ?_⟩
  · intro other live inside
    rcases mem_update_iff.mp inside with ⟨rfl, new⟩ | ⟨-, old⟩
    · cases new
    · exact Nat.lt_irrefl _ (tied.listed other _ old)
  · rw [subs]
    exact fun _ => nofun
  · rw [subs]
    exact List.nodup_nil
  · rw [name]
    intro free other way
    rcases way.cases_head with rfl | ⟨parent, step, rest⟩
    · exact root ▸ can.other free
    · obtain ⟨given, named, found⟩ := up parent step
      obtain ⟨climbed, live⟩ := climbs parent other ⟨given, found⟩ rest
      rw [others other fun same => gone (same ▸ live)]
      exact can.free free given parent named found other climbed
  · intro parent step way
    obtain ⟨given, named, found⟩ := up parent step
    rcases way.cases_head with rfl | ⟨sub, inside, -⟩
    · exact gone ⟨given, found⟩
    · have listed : sub ∈ (store.newArtTag data).1.subTags store.made := inside
      rw [subs] at listed
      cases listed
  · rw [name]
    intro other taken parent step way
    obtain ⟨given, named, found⟩ := up parent step
    refine can.taken other taken given parent named found (ReflTransGen.mono ?_ _ _ way)
    rintro tag next ⟨live, sub, inside, leads⟩
    rcases mem_update_iff.mp inside with ⟨rfl, new⟩ | ⟨-, old⟩
    · cases new
    · have apart : sub ≠ store.made := (Nat.ne_of_lt (tied.listed tag sub old))
      exact ⟨live, sub, old, congrArg store.pubTagIndex
        (update_of_ne apart _ _).symm |>.trans leads⟩

/-! ## Another name -/

private theorem removePublic_links (store : Store) (self : Tag) :
    (store.removePublic self).links = store.links := by
  unfold Store.removePublic
  split
  · rfl
  · rfl

private theorem foldl_removeIndex_links (store : Store) (tags : List Tag) :
    (tags.foldl Store.removeIndex store).links = { store.links with
      pubTagIndex := (tags.foldl Store.removeIndex store).pubTagIndex } := by
  induction tags generalizing store with
  | nil => rfl
  | cons tag tags ih => exact ih (store.removeIndex tag)

/-- Only the names of the tags leave the index. -/
theorem foldl_removeIndex_gone (store : Store) {tags : List Tag} {name : String}
    (gone : (tags.foldl Store.removeIndex store).pubTagIndex name = none) :
    store.pubTagIndex name = none ∨ ∃ tag ∈ tags, store.tagName tag = name := by
  induction tags generalizing store with
  | nil => exact .inl gone
  | cons tag tags ih =>
      rcases ih (store.removeIndex tag) gone with before | ⟨other, later, named⟩
      · by_cases here : name = store.tagName tag
        · exact .inr ⟨tag, List.mem_cons_self, here.symm⟩
        · exact .inl ((update_of_ne here _ _).symm.trans before)
      · exact .inr ⟨other, List.mem_cons_of_mem _ later, named⟩

/-- What is left when a tag of the index is removed. -/
structure Removed (store next : Store) (tag : Tag) : Prop where
  tied : next.links.Tied
  made : next.made = store.made
  tagName : next.tagName = store.tagName
  gone : ¬ next.links.Live tag
  unlisted : ∀ other, next.links.Live other → tag ∉ next.subTags other
  cleared : ∀ sub ∈ store.subTags tag, next.pubTagIndex (store.tagName sub) = none
  fewer : ∀ other, (next.subTags other).Sublist (store.subTags other)
  above : ∀ parent, ¬ next.links.Up tag parent
  waits : ∀ name, next.parentTag tag = some name → store.parentTag tag = some name ∧
    (store.pubTagIndex name = none ∨ ∃ sub ∈ store.subTags tag, store.tagName sub = name)

/-- No tag of its list has its name. -/
theorem Links.Tied.live_removeSubs (tied : store.links.Tied) (live : store.links.Live self) :
    ((store.subTags self).foldl Store.removeIndex store).links.Live self := by
  have index : store.pubTagIndex (store.tagName self) = some self := tied.index_of_live live
  refine ⟨store.tagName self, ?_⟩
  cases found : ((store.subTags self).foldl Store.removeIndex store).pubTagIndex
      (store.tagName self) with
  | none =>
      rcases foldl_removeIndex_gone store found with none | ⟨sub, inside, named⟩
      · cases index.symm.trans none
      · have leads : store.pubTagIndex (store.tagName sub) = some self := named ▸ index
        exact absurd ⟨live, sub, inside, leads⟩ (tied.nexts.irrefl self)
  | some other =>
      have before := (removes_foldl store (store.subTags self)).fewer _ other found
      cases index.symm.trans before
      exact found

theorem Links.Tied.removeTag (tied : store.links.Tied) (live : store.links.Live self) :
    Removed store (store.removeTag self) self := by
  obtain ⟨removes, free, cleared⟩ := removes_removeTag store self
  let first := (store.subTags self).foldl Store.removeIndex store
  have subsOut : first.links = { store.links with pubTagIndex := first.pubTagIndex } :=
    foldl_removeIndex_links store (store.subTags self)
  have firstTied : first.links.Tied := by
    rw [subsOut]
    exact tied.indexFewer (removes_foldl store (store.subTags self)).fewer
  have parents : first.parentTag = store.parentTag := congrArg Links.parentTag subsOut
  have lists : first.subTags = store.subTags := congrArg Links.subTags subsOut
  have made : first.made = store.made := congrArg Links.made subsOut
  have leaves := leaves_leaveParent firstTied self
  have links : (store.removeTag self).links = { (first.leaveParent self).links with
      pubTagIndex := update (first.leaveParent self).pubTagIndex
        ((first.leaveParent self).tagName self) none } := removePublic_links _ self
  have fewer := (removes_removeIndex (first.leaveParent self) self).fewer
  have alive : ∀ tag, (store.removeTag self).links.Live tag →
      (first.leaveParent self).links.Live tag := by
    rintro tag ⟨name, found⟩
    rw [links] at found
    exact ⟨name, fewer name tag found⟩
  have listsAfter : (store.removeTag self).subTags = (first.leaveParent self).subTags :=
    congrArg Links.subTags links
  have parentsAfter : (store.removeTag self).parentTag = (first.leaveParent self).parentTag :=
    congrArg Links.parentTag links
  refine {
    tied := links ▸ leaves.tied.indexFewer fewer
    made := (congrArg Links.made links).trans (leaves.made.trans made)
    tagName := removes.names
    gone := ?_
    unlisted := ?_
    cleared := cleared
    fewer := ?_
    above := ?_
    waits := ?_ }
  · rintro ⟨name, found⟩
    have named : store.tagName self = name := tied.named name self (removes.fewer name self found)
    cases free.symm.trans (named ▸ found)
  · intro other under
    rw [listsAfter]
    exact leaves.unlisted (tied.live_removeSubs live) other (alive other under)
  · intro other
    rw [listsAfter, ← lists]
    exact leaves.fewer other
  · rintro parent ⟨name, named, found⟩
    rw [links] at named found
    exact leaves.above parent ⟨name, named, fewer name parent found⟩
  · intro name named
    rw [parentsAfter] at named
    refine ⟨parents ▸ leaves.waits name named, foldl_removeIndex_gone store ?_⟩
    have gone : (first.leaveParent self).pubTagIndex name = none := by
      cases found : (first.leaveParent self).pubTagIndex name with
      | none => rfl
      | some parent => exact absurd ⟨name, named, found⟩ (leaves.above parent)
    exact (congrFun leaves.pubTagIndex name).symm.trans gone

private theorem Links.Tied.fits_renamed (tied : store.links.Tied) (live : store.links.Live self)
    {tagName : String} (can : CanName store self tagName) :
    (store.renamed self tagName).links.Tied ∧ Fits (store.renamed self tagName) self := by
  have removed := tied.removeTag live
  have renamed := removed.tied.rename removed.gone removed.unlisted tagName
  have name : (store.renamed self tagName).tagName self = tagName := update_self ..
  have others : ∀ tag, tag ≠ self →
      (store.renamed self tagName).tagName tag = store.tagName tag := fun tag apart =>
    (update_of_ne apart _ _).trans (congrFun removed.tagName tag)
  have inside : ∀ sub ∈ (store.renamed self tagName).subTags self,
      sub ∈ store.subTags self ∧ sub ≠ self := fun sub listed =>
    ⟨(removed.fewer self).subset listed, fun same =>
      renamed.subTags.irrefl self (same ▸ listed)⟩
  have above : ∀ parent, ¬ (store.renamed self tagName).links.Up self parent := removed.above
  refine ⟨renamed, ?_, removed.gone, removed.unlisted, ?_, ?_, ?_,
    fun parent up => absurd up (above parent), fun _ _ parent up => absurd up (above parent)⟩
  · exact Nat.lt_of_lt_of_eq (tied.lt_of_live live) removed.made.symm
  · intro sub listed
    obtain ⟨below, apart⟩ := inside sub listed
    rw [others sub apart, name]
    exact ⟨removed.cleared sub below, can.alone sub below⟩
  · have same : ((store.renamed self tagName).subTags self).map
        (store.renamed self tagName).tagName =
          ((store.renamed self tagName).subTags self).map store.tagName :=
      List.map_congr_left fun sub listed => others sub (inside sub listed).2
    rw [same]
    exact ((removed.fewer self).map store.tagName).nodup (tied.apart self live)
  · rw [name]
    intro free other way waiting
    rcases way.cases_head with rfl | ⟨parent, step, -⟩
    · obtain ⟨before, gone | ⟨sub, listed, named⟩⟩ := removed.waits tagName waiting
      · exact can.known before gone
      · exact can.alone sub listed named
    · exact above parent step

/-! ## The calls -/

private theorem changeRank_links (store : Store) (self : Tag) (rank : Option RankedTags.Rank) :
    (store.changeRank self rank).links = store.links := by
  unfold Store.changeRank
  split
  · split <;> rfl
  · rfl

theorem changeName_eq (store : Store) (self : Tag) {given : Option String} {tagName : String}
    (named : nonEmpty given = some tagName) :
    store.changeName self given = (store.renamed self tagName).addTag self := by
  simp only [Store.changeName, named, Store.renamed]

/-- Adding a tag keeps the number of tags. -/
theorem made_addTag (added : store.addTag tag = some next) : next.made = store.made := by
  rw [addTag_eq_fileTag] at added
  obtain ⟨filed, done, routed⟩ := Option.bind_eq_some_iff.mp added
  obtain ⟨first, indexed, later⟩ := Option.bind_eq_some_iff.mp done
  obtain ⟨second, placed, listed⟩ := Option.bind_eq_some_iff.mp later
  have last := (addRoute_links routed).trans (addSortedTagKind_links listed)
  have middle : second.links.made = first.links.made := by
    rcases addPlace_links placed with same | ⟨parent, -, same⟩ <;> rw [same]
  have start : first.links.made = store.links.made := by
    rcases addIndex_links indexed with ⟨same, -⟩ | ⟨same, -⟩ <;> rw [same]
  exact (congrArg Links.made last).trans (middle.trans start)

theorem CanName.congr (same : next.links = store.links) {tagName : String}
    (can : CanName store tag tagName) : CanName next tag tagName where
  alone := by
    have lists : next.subTags = store.subTags := congrArg Links.subTags same
    have names : next.tagName = store.tagName := congrArg Links.tagName same
    rw [lists, names]
    exact can.alone
  known := by
    have parents : next.parentTag = store.parentTag := congrArg Links.parentTag same
    have index : next.pubTagIndex = store.pubTagIndex := congrArg Links.pubTagIndex same
    rw [parents, index]
    exact can.known

private theorem Links.Tied.fits_toAdd (tied : store.links.Tied) {edit : Edit}
    (allowed : Allowed store edit) {before : Store}
    (given : store.toAdd edit = some (before, tag)) :
    before.links.Tied ∧ Fits before tag := by
  cases edit with
  | addTagInput data =>
      cases given
      exact ⟨tied.fresh data.tagName (nonEmpty data.parentTag), tied.fits_newArtTag data allowed⟩
  | addPublicTag artRank parentTag =>
      unfold Store.toAdd at given
      cases free : store.pubTagIndex artRank.tagName with
      | some other =>
          simp only [free] at given
          cases given
      | none =>
          simp only [free] at given
          cases given
          exact ⟨tied.fresh artRank.tagName (nonEmpty parentTag),
            tied.fits_newArtTag (artRank.input parentTag) (allowed free)⟩
  | changeParent tagName parentName => cases given
  | changeTagValue data =>
      unfold Store.toAdd at given
      cases found : store.pubTagIndex data.curTag with
      | none =>
          simp only [found] at given
          cases given
      | some self =>
          cases named : nonEmpty data.tagName with
          | none =>
              simp only [found, named] at given
              cases given
          | some tagName =>
              simp only [found, named] at given
              cases given
              have ranked := changeRank_links store tag data.rank
              exact Links.Tied.fits_renamed (ranked ▸ tied) (ranked ▸ ⟨_, found⟩)
                (((allowed tag found).1 tagName named).congr ranked)

/-- **One call.** Its walk ends, and the links it leaves lead nowhere back. -/
theorem Links.Tied.call (tied : store.links.Tied) {edit : Edit} (allowed : Allowed store edit) :
    Walks store edit ∧ ∀ next, store.call edit.call = some next → next.links.Tied := by
  have fits : ∀ {before tag}, store.toAdd edit = some (before, tag) →
      before.links.Tied ∧ Fits before tag := tied.fits_toAdd allowed
  have added : ∀ {before tag}, store.toAdd edit = some (before, tag) →
      ∀ next, before.addTag tag = some next → next.links.Tied :=
    fun given => ((fits given).1.addTag (fits given).2).2
  refine ⟨fun before tag filed given => ((fits given).1.addTag (fits given).2).1 filed, ?_⟩
  intro next called
  cases edit with
  | addTagInput data => exact added rfl next called
  | addPublicTag artRank parentTag =>
      have called : store.addPublicTag artRank parentTag = some next := called
      unfold Store.addPublicTag Store.addNewPublicTag at called
      cases free : store.pubTagIndex artRank.tagName with
      | some other =>
          simp only [free, Option.some.injEq] at called
          exact called ▸ tied
      | none =>
          simp only [free] at called
          exact added (by simp only [Store.toAdd, free]; rfl) next called
  | changeParent tagName parentName =>
      cases called
      exact tied.changeParent allowed
  | changeTagValue data =>
      obtain ⟨⟨last, name⟩, changed, rfl⟩ := Option.map_eq_some_iff.mp called
      unfold Store.changeTagValue at changed
      cases found : store.pubTagIndex data.curTag with
      | none =>
          simp only [found] at changed
          cases changed
          exact tied
      | some self =>
          simp only [found] at changed
          obtain ⟨named, renamed, same⟩ := Option.map_eq_some_iff.mp changed
          cases same
          have ranked := changeRank_links store self data.rank
          have made := tied.made data.curTag self found
          have kept : named.links.Tied ∧ self < named.made := by
            cases given : nonEmpty data.tagName with
            | none =>
                simp only [Store.changeName, given, Option.some.injEq] at renamed
                subst renamed
                exact ⟨ranked ▸ tied, Nat.lt_of_lt_of_eq made (congrArg Links.made ranked).symm⟩
            | some tagName =>
                rw [changeName_eq _ _ given] at renamed
                have filed : store.toAdd (.changeTagValue data) =
                    some ((store.changeRank self data.rank).renamed self tagName, self) := by
                  simp only [Store.toAdd, found, given]
                exact ⟨added filed named renamed,
                  Nat.lt_of_lt_of_eq (fits filed).2.made (made_addTag renamed).symm⟩
          exact kept.1.moveTag kept.2 ((allowed self found).2 named renamed)

private theorem tied_init : init.links.Tied where
  made := nofun
  named := nofun
  listed := nofun
  placed := nofun
  apart := fun _ _ => List.nodup_nil
  parents := by
    intro tag cycle
    obtain ⟨parent, ⟨name, named, -⟩, -⟩ := TransGen.head'_iff.mp cycle
    cases named
  subTags := by
    intro tag cycle
    obtain ⟨sub, inside, -⟩ := TransGen.head'_iff.mp cycle
    cases inside
  nexts := by
    intro tag cycle
    obtain ⟨next, ⟨⟨name, found⟩, -⟩, -⟩ := TransGen.head'_iff.mp cycle
    cases found

theorem Links.Tied.stays (tied : store.links.Tied) {edits : List Edit}
    (allowed : AllowedAll store edits) : Stays store edits := by
  induction edits generalizing store with
  | nil => exact tied.sound
  | cons edit edits ih =>
      obtain ⟨-, here, later⟩ := allowed
      obtain ⟨walks, kept⟩ := tied.call here
      exact ⟨tied.sound, walks, fun next called => ih (kept next called) (later next called)⟩

/-- **Edits.** After calls that each meet their condition no links between tags lead back, and all
walks along them have ended and end. -/
theorem stays_of_allowedAll (edits : List Edit) (allowed : AllowedAll init edits) :
    Stays init edits := tied_init.stays allowed

/-- A tag, another one below it, and the first one is made a top-level tag, as it is already. -/
theorem stays_of_allowedAll_three :
    Stays init [.addTagInput (tagInput "news" 10 none),
      .addTagInput (tagInput "sports" 5 (some "news")), .changeParent "news" none] := by
  refine stays_of_allowedAll _
    ⟨by decide, ⟨fun _ => nofun, fun _ _ _ => nofun, fun _ _ _ _ => nofun⟩, ?_⟩
  intro first called
  cases newsStore_eq.symm.trans called
  refine ⟨by decide, ⟨fun _ => by decide, ?_, nofun⟩,
    fun next _ => ⟨by decide, fun _ _ _ _ => nofun, fun _ _ => trivial⟩⟩
  rintro - name parent ⟨⟩ found tag way
  cases indexed_newsStore ⟨_, found⟩
  rcases way.cases_head with rfl | ⟨_, ⟨name, named, -⟩, -⟩
  · decide
  · cases named

/-- A tag that is its own parent. -/
theorem ownParent_not_stays :
    ¬ Stays init [.addTagInput (tagInput "news" 10 none), .changeParent "news" (some "news")] := by
  rintro ⟨-, -, later⟩
  obtain ⟨-, -, last⟩ := later newsStore newsStore_eq
  have loop : (newsStore.changeParent "news" (some "news")).links.Up 0 0 := ⟨"news", rfl, rfl⟩
  exact (last (newsStore.changeParent "news" (some "news")) rfl).parents 0 (.single loop)

end Tvntd.ArticleTagStore
