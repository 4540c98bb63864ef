import Tvntd.Java.ArtTagService
import Tvntd.Java.RawByte
import Tvntd.Lib.Repository
import Mathlib.Algebra.Group.Nat.Defs
import Mathlib.Algebra.Group.Int.Defs

/-! # Public addresses of articles

A tag and a title are made into the parts of an address: letters lose their
accents, blanks and punctuation become dashes, and what is neither ASCII nor an
accented letter is left out. The key of an address is a hash of both parts, one
fed behind the other.
-/

namespace Tvntd.PublicUrlService

/-- The units of `s_utf8Mapper`, by what they are mapped to. -/
def utf8Letters : List (Text × Char) :=
  [(Text.ofString "áàảãạâấầẩẫậăắằẳẵặ", 'a'), (Text.ofString "éèẻẽẹêếềểễệ", 'e'),
    (Text.ofString "íìỉĩị", 'i'), (Text.ofString "óòỏõọôốồổỗộơớờởỡợ", 'o'),
    (Text.ofString "úùủũụưứừửữự", 'u'), (Text.ofString "đ", 'd'), (Text.ofString "ýỳỷỹỵ", 'y')]

def utf8Mapper (ch : UInt16) : Option UInt16 :=
  (utf8Letters.find? fun entry => decide (ch ∈ entry.1)).map fun entry =>
    UInt16.ofNat entry.2.toNat

def isPunctuation (c : UInt16) : Bool :=
  decide (c ∈ Text.ofString ".,/\\;:\"'\x7b\x7d[]?~<>`!@#$%^&*()+=|")

/-- `Character.toLowerCase` of ASCII. -/
def toLowerCase (ch : UInt16) : UInt16 := if 0x41 ≤ ch ∧ ch ≤ 0x5A then ch + 0x20 else ch

/-- What is put out for a unit. -/
def urlUnit (ch : UInt16) : Option UInt16 :=
  if ch ≤ 127 then
    if ch = 0x20 ∨ isPunctuation ch = true then some 0x2D else some (toLowerCase ch)
  else utf8Mapper ch

def urlString (utf : Text) : Text := utf.filterMap urlUnit

def utf8ToUrlString (utf : Option Text) : Option Text := utf.map urlString

variable (sha1 : Sha1)

def toSha1Key (s1 s2 : Option Text) : Except Exception String :=
  match s1, s2 with
  | some s1, some s2 => .ok (sha1.digest (Text.getBytes s1 ++ Text.getBytes s2))
  | _, _ => .error .nullPointer

structure PublicUrl where
  urlOid : String
  authorUuid : Option String
  articleUuid : Option String
deriving DecidableEq

instance : Entity PublicUrl String := ⟨PublicUrl.urlOid⟩

def getPublicUrl (urlRepo : Repository PublicUrl) (tag title : Option Text) :
    Except Exception (Option PublicUrl) :=
  (toSha1Key sha1 (utf8ToUrlString tag) (utf8ToUrlString title)).map urlRepo.find

def savePublicUrl (urlRepo : Repository PublicUrl) (author article : Option String)
    (tag title : Option Text) : Except Exception (Repository PublicUrl × PublicUrl) :=
  (toSha1Key sha1 (utf8ToUrlString tag) (utf8ToUrlString title)).map fun urlOid =>
    let url : PublicUrl := ⟨urlOid, author, article⟩
    (urlRepo.save url, url)

def deletePublicUrl (urlRepo : Repository PublicUrl) (tag title : Option Text) :
    Except Exception (Repository PublicUrl) :=
  (toSha1Key sha1 (utf8ToUrlString tag) (utf8ToUrlString title)).map urlRepo.delete

/-- A call with a tag and a title. -/
inductive Request where
  | savePublicUrl (author article : Option String) (tag title : Text)
  | deletePublicUrl (tag title : Text)

def serve (urlRepo : Repository PublicUrl) : Request → Except Exception (Repository PublicUrl)
  | .savePublicUrl author article tag title =>
      (savePublicUrl sha1 urlRepo author article (some tag) (some title)).map Prod.fst
  | .deletePublicUrl tag title => deletePublicUrl sha1 urlRepo (some tag) (some title)

/-! ## What is asked of a history -/

/-- A tag and a title. -/
abbrev Pair := Text × Text

def Request.pair : Request → Pair
  | .savePublicUrl _ _ tag title => (tag, title)
  | .deletePublicUrl tag title => (tag, title)

/-- The parts of the address. -/
def form (pair : Pair) : Pair := (urlString pair.1, urlString pair.2)

/-- The parts of the address, one behind the other. -/
def joined (pair : Pair) : Text := urlString pair.1 ++ urlString pair.2

def keyOf (pair : Pair) : String :=
  sha1.digest (Text.getBytes (urlString pair.1) ++ Text.getBytes (urlString pair.2))

/-- The record behind a call, for the pairs of its form. -/
def Request.record : Request → Option PublicUrl
  | .savePublicUrl author article tag title => some ⟨keyOf sha1 (tag, title), author, article⟩
  | .deletePublicUrl _ _ => none

/-- The record last saved under a pair of the same form and not deleted since. -/
def lastSaved (requests : List Request) (pair : Pair) : Option PublicUrl :=
  requests.foldl
    (fun found request => if form request.pair = form pair then request.record sha1 else found) none

/-- Whatever is asked for from pairs of some set, and whatever has been called with them. -/
def Answers (pairs : Set Pair) : Prop :=
  ∀ requests : List Request, (∀ request ∈ requests, request.pair ∈ pairs) →
    ∃ urlRepo, requests.foldlM (serve sha1) Repository.empty = .ok urlRepo ∧
      ∀ pair ∈ pairs, getPublicUrl sha1 urlRepo (some pair.1) (some pair.2) =
        .ok (lastSaved sha1 requests pair)

/-! ## Keys -/

private theorem urlUnit_ascii {ch unit : UInt16} (out : urlUnit ch = some unit) :
    Text.isAscii unit = true := by
  rw [Text.isAscii_iff]
  unfold urlUnit at out
  split at out
  · rename_i small
    split at out
    · cases out
      decide
    · cases out
      unfold toLowerCase
      rw [UInt16.le_iff_toNat_le] at small
      have bound : ch.toNat ≤ 127 := small
      split
      · rename_i upper
        rw [UInt16.le_iff_toNat_le, UInt16.le_iff_toNat_le] at upper
        have top : ch.toNat ≤ 0x5A := upper.2
        rw [UInt16.toNat_add]
        have step : (0x20 : UInt16).toNat = 0x20 := rfl
        omega
      · omega
  · obtain ⟨entry, found, rfl⟩ := Option.map_eq_some_iff.mp out
    have all : ∀ entry ∈ utf8Letters, (UInt16.ofNat entry.2.toNat).toNat < 0x80 := by decide
    exact all entry (List.mem_of_find?_eq_some found)

theorem urlString_ascii (utf : Text) : ∀ unit ∈ urlString utf, Text.isAscii unit = true := by
  intro unit inside
  obtain ⟨ch, -, out⟩ := List.mem_filterMap.mp inside
  exact urlUnit_ascii out

private theorem getBytes_cons {unit : UInt16} (ascii : Text.isAscii unit = true) (rest : Text) :
    Text.getBytes (unit :: rest) = Text.unitBytes unit ++ Text.getBytes rest := by
  cases rest with
  | nil => exact (List.append_nil _).symm
  | cons next rest =>
      have whole := Text.isSurrogate_of_isAscii ascii
      rw [Text.isSurrogate, Bool.or_eq_false_iff] at whole
      rw [Text.getBytes, if_neg (by simp [whole.1])]

private theorem getBytes_append {text : Text} (ascii : ∀ unit ∈ text, Text.isAscii unit = true)
    (rest : Text) : Text.getBytes (text ++ rest) = Text.getBytes text ++ Text.getBytes rest := by
  induction text with
  | nil => rfl
  | cons unit later ih =>
      have first := ascii unit List.mem_cons_self
      rw [List.cons_append, getBytes_cons first, getBytes_cons first, List.append_assoc,
        ih fun other inside => ascii other (List.mem_cons_of_mem _ inside)]

private theorem paired_of_ascii {text : Text} (ascii : ∀ unit ∈ text, Text.isAscii unit = true) :
    Text.Paired text :=
  ((Text.length_getBytes_iff text).mpr ascii).2

private theorem getBytes_inj {first second : Text} (left : ∀ unit ∈ first, Text.isAscii unit = true)
    (right : ∀ unit ∈ second, Text.isAscii unit = true)
    (same : Text.getBytes first = Text.getBytes second) : first = second := by
  have one := (Text.getBytes_read (fun _ => 1) first).2
  have other := (Text.getBytes_read (fun _ => 1) second).2
  rw [(Text.repaired_eq_iff first).mpr (paired_of_ascii left)] at one
  rw [(Text.repaired_eq_iff second).mpr (paired_of_ascii right)] at other
  rw [← one, ← other, same]

variable {sha1}

/-- A key is of the joined parts. -/
theorem keyOf_inj (sha1 : Sha1) {pair other : Pair} : keyOf sha1 pair = keyOf sha1 other ↔
    joined pair = joined other := by
  have ascii : ∀ pair : Pair, ∀ unit ∈ joined pair, Text.isAscii unit = true := by
    intro pair unit inside
    rcases List.mem_append.mp inside with inside | inside
    · exact urlString_ascii _ unit inside
    · exact urlString_ascii _ unit inside
  have bytes : ∀ pair : Pair, keyOf sha1 pair = sha1.digest (Text.getBytes (joined pair)) := by
    intro pair
    rw [joined, getBytes_append (urlString_ascii _), keyOf]
  rw [bytes, bytes]
  constructor
  · exact fun same => getBytes_inj (ascii pair) (ascii other) (sha1.injective same)
  · exact fun same => congrArg (fun text => sha1.digest (Text.getBytes text)) same

/-! ## Histories -/

/-- What a call leaves under its key, and what it leaves alone. -/
theorem serve_eq (sha1 : Sha1) (urlRepo : Repository PublicUrl) (request : Request) :
    ∃ after, serve sha1 urlRepo request = .ok after ∧
      ∀ pair, after.find (keyOf sha1 pair) =
        if joined request.pair = joined pair then request.record sha1
        else urlRepo.find (keyOf sha1 pair) := by
  cases request with
  | savePublicUrl author article tag title =>
      refine ⟨_, rfl, ?_⟩
      intro pair
      refine (Repository.find_save urlRepo _ _).trans ?_
      have same : keyOf sha1 pair = keyOf sha1 (tag, title) ↔ _ := keyOf_inj sha1
      exact if_congr (same.trans eq_comm) rfl rfl
  | deletePublicUrl tag title =>
      refine ⟨_, rfl, ?_⟩
      intro pair
      refine (Repository.find_delete urlRepo _ _).trans ?_
      have same : keyOf sha1 pair = keyOf sha1 (tag, title) ↔ _ := keyOf_inj sha1
      exact if_congr (same.trans eq_comm) rfl rfl

/-- Pairs that share their joined parts share their parts. -/
def Apart (pairs : Set Pair) : Prop :=
  ∀ pair ∈ pairs, ∀ other ∈ pairs, joined pair = joined other → form pair = form other

variable {pairs : Set Pair}

private theorem getPublicUrl_eq (urlRepo : Repository PublicUrl) (pair : Pair) :
    getPublicUrl sha1 urlRepo (some pair.1) (some pair.2) =
      .ok (urlRepo.find (keyOf sha1 pair)) := rfl

/-- The records of a run, where no two forms meet. -/
theorem run_of_apart (sha1 : Sha1) (apart : Apart pairs) (requests : List Request)
    (used : ∀ request ∈ requests, request.pair ∈ pairs) (urlRepo : Repository PublicUrl) :
    ∃ after, requests.foldlM (serve sha1) urlRepo = .ok after ∧
      ∀ pair ∈ pairs, after.find (keyOf sha1 pair) = requests.foldl
        (fun found request => if form request.pair = form pair then request.record sha1 else found)
        (urlRepo.find (keyOf sha1 pair)) := by
  induction requests generalizing urlRepo with
  | nil => exact ⟨urlRepo, rfl, fun _ _ => rfl⟩
  | cons request rest ih =>
      obtain ⟨next, served, records⟩ := serve_eq sha1 urlRepo request
      obtain ⟨after, ran, later⟩ :=
        ih (fun other inside => used other (List.mem_cons_of_mem _ inside)) next
      refine ⟨after, ?_, ?_⟩
      · rw [List.foldlM_cons, served]
        exact ran
      · intro pair inside
        have same : joined request.pair = joined pair ↔ form request.pair = form pair := by
          constructor
          · exact apart _ (used request List.mem_cons_self) _ inside
          · intro forms
            have parts := Prod.mk.injEq _ _ _ _ ▸ forms
            rw [joined, joined, parts.1, parts.2]
        rw [later pair inside, records, List.foldl_cons, if_congr same rfl rfl]

/-- A record that is saved under a pair is found under every pair with the same key. -/
theorem Answers.apart (answers : Answers sha1 pairs) : Apart pairs := by
  intro pair inside other member same
  by_contra forms
  obtain ⟨urlRepo, served, found⟩ := answers [.savePublicUrl none none pair.1 pair.2] (by
    intro request only
    rw [List.mem_singleton.mp only]
    exact inside)
  obtain ⟨after, one, records⟩ :=
    serve_eq sha1 Repository.empty (.savePublicUrl none none pair.1 pair.2)
  rw [List.foldlM_cons, one] at served
  cases served
  have asked := found other member
  rw [getPublicUrl_eq, records] at asked
  have saved := (if_pos same).symm.trans (Except.ok.inj asked)
  have unsaved : lastSaved sha1 [.savePublicUrl none none pair.1 pair.2] other = none :=
    if_neg forms
  rw [unsaved] at saved
  cases saved

/-- **The records of a set of pairs are kept apart exactly if no two of its forms are joined to the
same text.** -/
theorem answers_iff_apart (sha1 : Sha1) (pairs : Set Pair) : Answers sha1 pairs ↔ Apart pairs := by
  constructor
  · exact Answers.apart
  · intro apart requests used
    obtain ⟨urlRepo, ran, records⟩ := run_of_apart sha1 apart requests used .empty
    refine ⟨urlRepo, ran, ?_⟩
    intro pair inside
    rw [getPublicUrl_eq, records pair inside]
    rfl

/-- What is saved under one pair is found under another. -/
theorem joined_not_answers : ¬ Answers ArtTagService.plainSha1
    {(Text.ofString "ab", Text.ofString "c"), (Text.ofString "a", Text.ofString "bc")} := by
  intro answers
  have forms := answers.apart (Text.ofString "ab", Text.ofString "c") (Or.inl rfl)
    (Text.ofString "a", Text.ofString "bc") (Or.inr rfl) (by decide)
  exact absurd forms (by decide)

end Tvntd.PublicUrlService
