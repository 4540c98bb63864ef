import Tvntd.Java.Text

/-! # The form of a post

A form that is accepted has been cleaned: its texts have passed a whitelist, a
title and a tag that were missing are set, and the address of a video is split
into a host and a file.
-/

namespace Tvntd

namespace Text

/-- The last place where a part stands. -/
def lastIndexOf (text part : Text) : Option Nat :=
  (List.range (text.length + 1)).reverse.find? fun idx => part.isPrefixOf (text.drop idx)

def contains (text part : Text) : Bool := (text.lastIndexOf part).isSome

end Text

/-- What is outside the program: the whitelist, the reader of documents and the reader of URLs. -/
structure Web where
  clean : Text → Text
  /-- The same on the text of a uuid. -/
  cleanUuid : String → String
  /-- The text of a document without its elements. -/
  text : Text → Text
  /-- The source of the first frame of a document. -/
  iframe : Text → Option Text
  /-- The host and the path of a URL that is well formed. -/
  url : Text → Option (Text × Text)

/-- The kinds of linked documents. -/
def DOC_TYPE : Nat := 100
def VID_TYPE : Nat := 200
def DRV_TYPE : Nat := 300

structure PostForm where
  topic : Option Text
  content : Option Text
  tags : Option Text
  authorUuid : Option String
  articleUuid : Option String
  contentBrief : Option Text
  videoUrl : Option Text
  contentUrlFile : Option Text
  contentUrlHost : Option Text
  docType : Nat
deriving DecidableEq

namespace PostForm

def DefaultTopic : Text := Text.ofString "Post"

def DefaultTag : Text := Text.ofString "My Post"

def parseFileId (path : Text) : Text :=
  match path.lastIndexOf (Text.ofString "/view") with
  | some idx => path.take idx
  | none =>
      match path.lastIndexOf (Text.ofString "/pub") with
      | some idx => path.take idx
      | none =>
          let result :=
            if 5 < path.length ∧ path.take 5 = Text.ofString "embed" then path.drop 5 else path
          let result :=
            match Text.lastIndexOf result (Text.ofString "/embed") with
            | some idx => if idx + 6 < result.length then result.drop (idx + 6) else result
            | none => result
          match Text.lastIndexOf result (Text.ofString "?v=") with
          | some idx => if idx + 3 < result.length then result.drop (idx + 3) else result
          | none => result

variable (web : Web)

/-- The host and the file of an address. -/
def splitUrl (input : Text) : Option (Text × Text) :=
  let url :=
    match web.iframe input with
    | none => web.url input
    | some src => if src = [] then none else web.url src
  match url with
  | some url => some url
  | none =>
      match input.findIdx? fun unit => decide (unit = 0x2F) with
      | some idx => if 0 < idx then some (input.take idx, input.drop (idx + 1)) else none
      | none => none

/-- A host that is not known keeps the kind of the document. -/
def parseIframe (form : PostForm) (input : Text) : PostForm :=
  match splitUrl web input with
  | none => form
  | some (host, file) =>
      { form with
        contentUrlHost := some host
        contentUrlFile := some (parseFileId file)
        docType :=
          if host.contains (Text.ofString "docs.google.com") then DOC_TYPE
          else if host.contains (Text.ofString "youtube.com") ||
            host.contains (Text.ofString "youtu.be") then VID_TYPE
          else if host.contains (Text.ofString "drive.google.com") then DRV_TYPE
          else form.docType }

def toBriefContent (input : Text) : Text := web.text (input.take 255)

/-- The form that is accepted. -/
def cleanInput (form : PostForm) : Option PostForm :=
  match form.authorUuid, form.articleUuid with
  | some authorUuid, some articleUuid =>
      if form.content = none ∧ form.videoUrl = none then none
      else
        let content := form.content.map web.clean
        let cleaned :=
          { form with
            topic := some (web.clean (form.topic.getD DefaultTopic))
            tags := some (web.clean (form.tags.getD DefaultTag))
            authorUuid := some (web.cleanUuid authorUuid)
            articleUuid := some (web.cleanUuid articleUuid)
            content := content
            contentBrief := (content.map (toBriefContent web)).or form.contentBrief }
        some (form.videoUrl.elim cleaned (parseIframe web cleaned))
  | _, _ => none

/-- The form has a link, which takes the place of its content. -/
def Linked (form : PostForm) : Prop :=
  form.contentUrlHost.isSome ∧ form.contentUrlFile.isSome

instance (form : PostForm) : Decidable form.Linked :=
  inferInstanceAs (Decidable (_ ∧ _))

variable {web}

end PostForm

end Tvntd
