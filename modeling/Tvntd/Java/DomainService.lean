import Tvntd.Lib.Repository
import Tvntd.Lib.Service

/-! # Domain names of users

A user holds at most one domain name. A request for a name first releases the
one its user has, and only then looks whether the new name is free.
-/

namespace Tvntd.DomainService

structure Domain where
  domain : String
  authorUuid : String
  authorId : Int
deriving DecidableEq

instance : Entity Domain String := ⟨Domain.domain⟩

/-- What a request reads of the profile of its user. -/
structure ProfileDTO where
  userUuid : String
  userId : Int
deriving DecidableEq

def deleteByAuthorUuid (domainRepo : Repository Domain) (authorUuid : String) :
    Repository Domain :=
  domainRepo.deleteAll fun domain => decide (domain.authorUuid = authorUuid)

def getDomain (domainRepo : Repository Domain) (domain : String) : Option Domain :=
  domainRepo.find domain

def saveDomain (domainRepo : Repository Domain) (name : String) (profile : ProfileDTO) :
    Repository Domain × Bool :=
  let domainRepo := deleteByAuthorUuid domainRepo profile.userUuid
  match getDomain domainRepo name with
  | some _ => (domainRepo, false)
  | none => (domainRepo.save ⟨name, profile.userUuid, profile.userId⟩, true)

structure Request where
  name : String
  profile : ProfileDTO
deriving DecidableEq

def service : Service (Repository Domain) Request Bool :=
  ⟨fun domainRepo request => saveDomain domainRepo request.name request.profile⟩

/-! ## Who owns a name -/

def Owns (domainRepo : Repository Domain) (userUuid name : String) : Prop :=
  ∃ domain ∈ domainRepo.rows, domain.authorUuid = userUuid ∧ domain.domain = name

instance (domainRepo : Repository Domain) (userUuid name : String) :
    Decidable (Owns domainRepo userUuid name) :=
  inferInstanceAs (Decidable (∃ domain ∈ domainRepo.rows, _))

/-- Each name has at most one owner, and each user at most one name. -/
structure Exclusive (domainRepo : Repository Domain) : Prop where
  oneOwner : ∀ {name first second}, Owns domainRepo first name → Owns domainRepo second name →
    first = second
  oneName : ∀ {userUuid first second}, Owns domainRepo userUuid first →
    Owns domainRepo userUuid second → first = second

private theorem owns_oneOwner {domainRepo : Repository Domain} {name first second : String}
    (left : Owns domainRepo first name) (right : Owns domainRepo second name) : first = second := by
  obtain ⟨domain, inside, rfl, rfl⟩ := left
  obtain ⟨other, held, rfl, same⟩ := right
  rw [Repository.eq_of_mem_of_key inside held same.symm]

theorem exclusive_empty : Exclusive Repository.empty where
  oneOwner := owns_oneOwner
  oneName := by
    rintro userUuid first second ⟨domain, inside, -⟩
    cases inside

variable {domainRepo : Repository Domain} {request : Request}

private theorem owns_deleteByAuthorUuid {authorUuid userUuid name : String} :
    Owns (deleteByAuthorUuid domainRepo authorUuid) userUuid name ↔
      Owns domainRepo userUuid name ∧ userUuid ≠ authorUuid := by
  unfold Owns deleteByAuthorUuid
  simp only [Repository.mem_deleteAll, decide_eq_false_iff_not]
  constructor
  · rintro ⟨domain, ⟨inside, apart⟩, rfl, rfl⟩
    exact ⟨⟨domain, inside, rfl, rfl⟩, apart⟩
  · rintro ⟨⟨domain, inside, rfl, rfl⟩, apart⟩
    exact ⟨domain, ⟨inside, apart⟩, rfl, rfl⟩

private theorem getDomain_eq_none {name : String} :
    getDomain domainRepo name = none ↔ ∀ userUuid, ¬ Owns domainRepo userUuid name := by
  rw [getDomain, Repository.find_eq_none]
  constructor
  · rintro absent userUuid ⟨domain, inside, -, same⟩
    exact absent domain inside same
  · intro absent domain inside same
    exact absent domain.authorUuid ⟨domain, inside, rfl, same⟩

theorem owns_save {domain : Domain} (free : ∀ userUuid, ¬ Owns domainRepo userUuid domain.domain)
    {userUuid name : String} :
    Owns (domainRepo.save domain) userUuid name ↔
      Owns domainRepo userUuid name ∨ userUuid = domain.authorUuid ∧ name = domain.domain := by
  unfold Owns at free ⊢
  simp only [Repository.mem_save]
  constructor
  · rintro ⟨other, rfl | ⟨inside, -⟩, rfl, rfl⟩
    · exact Or.inr ⟨rfl, rfl⟩
    · exact Or.inl ⟨other, inside, rfl, rfl⟩
  · rintro (⟨other, inside, rfl, rfl⟩ | ⟨rfl, rfl⟩)
    · refine ⟨other, Or.inr ⟨inside, ?_⟩, rfl, rfl⟩
      intro same
      exact free other.authorUuid ⟨other, inside, rfl, same⟩
    · exact ⟨domain, Or.inl rfl, rfl, rfl⟩

/-! ## One request -/

/-- The name is held by another user. -/
def Taken (domainRepo : Repository Domain) (request : Request) : Prop :=
  ∃ userUuid, userUuid ≠ request.profile.userUuid ∧ Owns domainRepo userUuid request.name

private theorem saveDomain_of_taken (taken : Taken domainRepo request) :
    saveDomain domainRepo request.name request.profile =
      (deleteByAuthorUuid domainRepo request.profile.userUuid, false) := by
  obtain ⟨userUuid, apart, owned⟩ := taken
  unfold saveDomain
  cases found : getDomain (deleteByAuthorUuid domainRepo request.profile.userUuid) request.name with
  | some domain => simp only [found]
  | none =>
      have absent := getDomain_eq_none.mp found userUuid
      exact absurd (owns_deleteByAuthorUuid.mpr ⟨owned, apart⟩) absent

private theorem saveDomain_of_free (free : ¬ Taken domainRepo request) :
    (saveDomain domainRepo request.name request.profile).2 = true ∧
      ∀ {userUuid name}, Owns (saveDomain domainRepo request.name request.profile).1 userUuid name ↔
        (Owns domainRepo userUuid name ∧ userUuid ≠ request.profile.userUuid) ∨
          userUuid = request.profile.userUuid ∧ name = request.name := by
  have absent : ∀ userUuid, ¬ Owns (deleteByAuthorUuid domainRepo request.profile.userUuid)
      userUuid request.name := by
    intro userUuid owned
    obtain ⟨before, apart⟩ := owns_deleteByAuthorUuid.mp owned
    exact free ⟨userUuid, apart, before⟩
  unfold saveDomain
  simp only [getDomain_eq_none.mpr absent, true_and]
  intro userUuid name
  rw [owns_save absent, owns_deleteByAuthorUuid]

private theorem exclusive_saveDomain (exclusive : Exclusive domainRepo) (request : Request) :
    Exclusive (saveDomain domainRepo request.name request.profile).1 := by
  refine ⟨owns_oneOwner, ?_⟩
  intro userUuid first second left right
  by_cases taken : Taken domainRepo request
  · rw [saveDomain_of_taken taken] at left right
    exact exclusive.oneName (owns_deleteByAuthorUuid.mp left).1
      (owns_deleteByAuthorUuid.mp right).1
  · have owned := @(saveDomain_of_free taken).2
    rcases owned.mp left with ⟨held, apart⟩ | ⟨mine, rfl⟩
    · rcases owned.mp right with ⟨also, -⟩ | ⟨same, -⟩
      · exact exclusive.oneName held also
      · exact absurd same apart
    · rcases owned.mp right with ⟨-, apart⟩ | ⟨-, rfl⟩
      · exact absurd mine apart
      · rfl

/-! ## Histories of requests -/

/-- What a request promises: the names stay exclusive, its user has exactly the name when it is
granted, and nobody's name changes when it is not. -/
structure Honoured (before : Repository Domain) (request : Request) (after : Repository Domain)
    (granted : Bool) : Prop where
  exclusive : Exclusive after
  owned : granted = true →
    ∀ name, Owns after request.profile.userUuid name ↔ name = request.name
  unchanged : granted = false →
    ∀ userUuid name, Owns after userUuid name ↔ Owns before userUuid name

/-- A user who owns a name asks for none that another user holds. -/
def NothingToLose (domainRepo : Repository Domain) (request : Request) : Prop :=
  Taken domainRepo request → ∀ name, ¬ Owns domainRepo request.profile.userUuid name

private theorem honoured_iff (domainRepo : Repository Domain) (request : Request)
    (exclusive : Exclusive domainRepo) :
    Honoured domainRepo request (service.serve domainRepo request).1
      (service.serve domainRepo request).2 ↔ NothingToLose domainRepo request := by
  change Honoured domainRepo request (saveDomain domainRepo request.name request.profile).1
    (saveDomain domainRepo request.name request.profile).2 ↔ _
  have still := exclusive_saveDomain exclusive request
  by_cases taken : Taken domainRepo request
  · have refused := saveDomain_of_taken taken
    constructor
    · intro honoured _ name owned
      have kept := honoured.unchanged (by rw [refused]) request.profile.userUuid name
      rw [refused, owns_deleteByAuthorUuid] at kept
      exact (kept.mpr owned).2 rfl
    · intro nothing
      refine ⟨still, ?_, ?_⟩
      · intro granted
        rw [refused] at granted
        cases granted
      · intro _ userUuid name
        rw [refused, owns_deleteByAuthorUuid]
        refine ⟨And.left, fun owned => ⟨owned, ?_⟩⟩
        rintro rfl
        exact nothing taken name owned
  · obtain ⟨granted, owned⟩ := saveDomain_of_free taken
    refine iff_of_true ⟨still, ?_, ?_⟩ fun held => absurd held taken
    · intro _ name
      rw [owned]
      simp
    · intro refused
      rw [granted] at refused
      cases refused

/-- **A history of requests is honoured exactly when nobody asks for the name of another user
while having one.** -/
theorem honoured_iff_nothingToLose (requests : List Request) :
    service.Along Honoured Repository.empty requests ↔
      service.Meets NothingToLose Repository.empty requests := by
  apply Service.along_iff_meets honoured_iff ?_ exclusive_empty
  intro domainRepo request exclusive _
  exact exclusive_saveDomain exclusive request

/-- A user asks for the name of another and is left without the one they had. -/
theorem refused_loses_name :
    ¬ service.Along Honoured Repository.empty
      [⟨"one", ⟨"u", 1⟩⟩, ⟨"two", ⟨"v", 2⟩⟩, ⟨"two", ⟨"u", 1⟩⟩] := by
  rintro ⟨-, -, honoured, -⟩
  have kept := (honoured.unchanged rfl "u" "one").mpr (by decide)
  exact absurd kept (by decide)

end Tvntd.DomainService
