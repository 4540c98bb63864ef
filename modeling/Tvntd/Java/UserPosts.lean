import Tvntd.Java.UserPath

/-! # The posts in a session

`get-posts` reads the posts of a user from the database once and keeps both lists
in the session. No other request changes them, and `get-posts` returns them as
they are from then on.
-/

namespace Tvntd.UserPath

/-- The lists of posts in a profile. -/
structure Arts where
  publishedArts : Option (List ArticlePost)
  savedArts : Option (List ArticlePost)

/-- A session with the lists of its profile. -/
structure Session where
  site : Site
  arts : Arts

/-- The session behind a login. -/
def Session.fresh (site : Site) : Session := ⟨site, none, none⟩

inductive SessionRequest where
  | getPosts (uuid : UserUuid)
  | write (request : Request)

inductive SessionResponse where
  | noProfile
  | articles (articles : List ArticlePost) (pendPosts : Option (List ArticlePost))
  | written (reply : Except Exception Response)

def isPublished (art : ArticlePost) : Bool := !art.pending

/-- The stored posts of an author. -/
def postsOf (db : Database) (authorUuid : UserUuid) : List ArticlePost :=
  db.artPostRepo.findAll fun post => decide (post.authorUuid = authorUuid)

/-- The lists of a profile, read from the database where it has none. -/
def fillArts (db : Database) (authorUuid : UserUuid) (arts : Arts) : Arts × SessionResponse :=
  match arts.publishedArts with
  | some published => (arts, .articles published arts.savedArts)
  | none =>
      let all := postsOf db authorUuid
      let published := all.filter isPublished
      let saved := arts.savedArts.getD [] ++ all.filter fun art => !isPublished art
      (⟨some published, some saved⟩, .articles published (some saved))

-- Which users have a profile is left open.
variable (hasProfile : UserUuid → Bool) (web : Web) (sha1 : Sha1) (newString : Octets → Text)

/-- The profile of another user is loaded for the request and has no lists. -/
def getUserArticles (session : Session) (uuid : UserUuid) : Session × SessionResponse :=
  if uuid = session.site.profile.userUuid then
    let filled := fillArts session.site.db uuid session.arts
    (⟨session.site, filled.1⟩, filled.2)
  else if hasProfile uuid then (session, (fillArts session.site.db uuid ⟨none, none⟩).2)
  else (session, .noProfile)

def userPosts : Service Session SessionRequest SessionResponse :=
  ⟨fun session request =>
    match request with
    | .getPosts uuid => getUserArticles hasProfile session uuid
    | .write request =>
        let written := (userPath web sha1 newString).serve session.site request
        (⟨written.1, session.arts⟩, .written written.2)⟩

/-- A user who asks for their own posts gets each stored one once, by its flag. -/
def PostsRight (session : Session) (request : SessionRequest) (_ : Session)
    (reply : SessionResponse) : Prop :=
  request = .getPosts session.site.profile.userUuid →
    ∃ published saved, reply = .articles published (some saved) ∧
      published.Perm
        ((postsOf session.site.db session.site.profile.userUuid).filter isPublished) ∧
      saved.Perm
        ((postsOf session.site.db session.site.profile.userUuid).filter fun art => !isPublished art)

/-- Whenever the user asks for their own posts, they are what they were when the user asked
first. -/
def PostsKept (site : Site) (first : Option (List ArticlePost)) : List SessionRequest → Prop
  | [] => True
  | .getPosts uuid :: rest =>
      let posts := postsOf site.db site.profile.userUuid
      if uuid = site.profile.userUuid then
        (∀ before ∈ first, before.Perm posts) ∧ PostsKept site (some (first.getD posts)) rest
      else PostsKept site first rest
  | .write request :: rest =>
      PostsKept ((userPath web sha1 newString).serve site request).1 first rest

/-- What a session keeps of the posts that were read first. -/
def artsOf (first : Option (List ArticlePost)) : Arts where
  publishedArts := first.map fun posts => posts.filter isPublished
  savedArts := first.map fun posts => posts.filter fun art => !isPublished art

private theorem Session.fresh_eq (site : Site) : Session.fresh site = ⟨site, artsOf none⟩ := rfl

/-- Two lists of posts are the same when both halves are. -/
theorem perm_split_iff {first second : List ArticlePost} :
    ((first.filter isPublished).Perm (second.filter isPublished) ∧
      (first.filter fun art => !isPublished art).Perm (second.filter fun art => !isPublished art)) ↔
        first.Perm second := by
  constructor
  · rintro ⟨published, saved⟩
    calc first.Perm (first.filter isPublished ++ first.filter fun art => !isPublished art) :=
          (List.filter_append_perm isPublished first).symm
      List.Perm _ (second.filter isPublished ++ second.filter fun art => !isPublished art) :=
          published.append saved
      List.Perm _ second := List.filter_append_perm isPublished second
  · exact fun same => ⟨same.filter _, same.filter _⟩

private theorem fillArts_artsOf (db : Database) (authorUuid : UserUuid)
    (first : Option (List ArticlePost)) :
    fillArts db authorUuid (artsOf first) =
      (artsOf (some (first.getD (postsOf db authorUuid))),
        .articles ((first.getD (postsOf db authorUuid)).filter isPublished)
          (some ((first.getD (postsOf db authorUuid)).filter fun art => !isPublished art))) := by
  cases first with
  | none => rfl
  | some posts => rfl

variable {hasProfile web sha1 newString} {site : Site} {first : Option (List ArticlePost)}

/-- The answer to a user who asks for their own posts. -/
theorem postsRight_own_iff : PostsRight ⟨site, artsOf first⟩ (.getPosts site.profile.userUuid)
      ((userPosts hasProfile web sha1 newString).serve ⟨site, artsOf first⟩
        (.getPosts site.profile.userUuid)).1
      ((userPosts hasProfile web sha1 newString).serve ⟨site, artsOf first⟩
        (.getPosts site.profile.userUuid)).2 ↔
    ∀ before ∈ first, before.Perm (postsOf site.db site.profile.userUuid) := by
  have answer : ((userPosts hasProfile web sha1 newString).serve ⟨site, artsOf first⟩
      (.getPosts site.profile.userUuid)).2 =
        (fillArts site.db site.profile.userUuid (artsOf first)).2 := by
    simp only [userPosts, getUserArticles, if_true]
  rw [answer, fillArts_artsOf]
  cases first with
  | none =>
      refine iff_of_true ?_ (by simp)
      exact fun _ => ⟨_, _, rfl, .refl _, .refl _⟩
  | some posts =>
      simp only [Option.mem_def, Option.some.injEq, forall_eq', Option.getD_some]
      rw [← perm_split_iff]
      constructor
      · intro right
        obtain ⟨published, saved, same, right⟩ := right rfl
        cases same
        exact right
      · exact fun right _ => ⟨_, _, rfl, right⟩

/-- What a session keeps are the posts that were read first. -/
theorem along_iff_postsKept (requests : List SessionRequest) : ∀ {site : Site}
    {first : Option (List ArticlePost)},
      (userPosts hasProfile web sha1 newString).Along PostsRight ⟨site, artsOf first⟩ requests ↔
        PostsKept web sha1 newString site first requests := by
  induction requests with
  | nil => exact Iff.rfl
  | cons request rest ih =>
      intro site first
      rw [Service.Along]
      cases request with
      | write request =>
          refine (and_iff_right ?_).trans ih
          intro other
          cases other
      | getPosts uuid =>
          rw [PostsKept]
          by_cases own : uuid = site.profile.userUuid
          · subst own
            rw [if_pos rfl, postsRight_own_iff, ← ih]
            have session : ((userPosts hasProfile web sha1 newString).serve ⟨site, artsOf first⟩
                (.getPosts site.profile.userUuid)).1 =
                  ⟨site, artsOf (some (first.getD (postsOf site.db site.profile.userUuid)))⟩ := by
              simp only [userPosts, getUserArticles, if_true, fillArts_artsOf]
            rw [session]
          · have session : ((userPosts hasProfile web sha1 newString).serve ⟨site, artsOf first⟩
                (.getPosts uuid)).1 = ⟨site, artsOf first⟩ := by
              simp only [userPosts, getUserArticles, if_neg own]
              split
              · rfl
              · rfl
            rw [if_neg own, session]
            refine (and_iff_right ?_).trans ih
            intro same
            exact absurd (SessionRequest.getPosts.inj same) own

/-- **A session, exactly.** Every time a user asks for their own posts the answer has each stored
one once, published or saved by its flag, exactly if whenever they ask their posts are what they
were when they asked first. -/
theorem own_posts_iff (hasProfile : UserUuid → Bool) (web : Web) (sha1 : Sha1)
    (newString : Octets → Text) (site : Site) (requests : List SessionRequest) :
    (userPosts hasProfile web sha1 newString).Along PostsRight (Session.fresh site) requests ↔
      PostsKept web sha1 newString site none requests := by
  rw [Session.fresh_eq]
  exact along_iff_postsKept requests

/-- A user without posts asks for them, publishes a long one, and asks again. -/
theorem own_posts_wrong : ¬ (userPosts (fun _ => true) ArticleSvc.plainWeb ArtTagService.plainSha1
      AuthorService.ascii).Along PostsRight (Session.fresh library)
    [.getPosts library.profile.userUuid,
      .write (.savePost (ArticleSvc.diaryForm (List.replicate 256 0x61)) true "note"),
      .getPosts library.profile.userUuid] := by
  rw [Session.fresh_eq, along_iff_postsKept]
  intro kept
  rw [PostsKept, if_pos rfl, PostsKept, PostsKept, if_pos (by decide +kernel)] at kept
  obtain ⟨-, same, -⟩ := kept
  exact absurd (same _ rfl).length_eq (by decide +kernel)

end Tvntd.UserPath
