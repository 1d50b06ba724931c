import BlobCache.Data.Url
import BlobCache.Fetcher.State

/-!
The URLs of blobs: `BlobClient::url` pastes the names of the container and of the blob
into the text of a URL and parses that. The service reads the blob's name from the
decoded path of the URL it is asked for. Names that are not literal are read as other
names: a `?` or `#` ends the path, an escape is decoded, dot segments are resolved.

`list_blobs` escapes the prefix it pastes into a query; `url` escapes nothing.
-/

namespace BlobCache.Azure

open Web

/-- The name of a storage account: letters in lower case and digits. -/
structure AccountName where
  text : String
  plain : ∀ x ∈ utf8 text, 48 ≤ x ∧ x ≤ 57 ∨ 97 ≤ x ∧ x ≤ 122

def AccountName.authority (account : AccountName) : Bytes :=
  utf8 account.text ++ utf8 ".blob.core.windows.net"

inductive Method where
  | head
  | get
  deriving DecidableEq

/-- What `BlobClient::send` is given. -/
structure Request where
  method : Method
  url : Url
  range : Option String
  deriving DecidableEq

/-- The value of the header `x-ms-range`. -/
def rangeHeader (offset length : UInt64) : String :=
  let last := offset + length - 1
  s!"bytes={offset}-{last}"

section Client

variable (parseAuthority : Bytes → Option Bytes) (parseError : String)

/-- `BlobClient::url`. The text of the parser's error is a parameter. -/
def url (account : AccountName) (container blob : String) : Except BcError Url :=
  let account := account.text
  match parse? parseAuthority
    (utf8 s!"https://{account}.blob.core.windows.net/{container}/{blob}") with
  | some url => .ok url
  | none => .error (.invalidUrl parseError)

/-- The request of `BlobClient::get_blob_properties`. -/
def getBlobProperties (account : AccountName) (container blob : String) :
    Except BcError Request := do
  let url ← url parseAuthority parseError account container blob
  return ⟨.head, url, none⟩

/-- The request of `BlobClient::get_blob_range`. -/
def getBlobRange (account : AccountName) (container blob : String) (offset length : UInt64) :
    Except BcError Request := do
  let url ← url parseAuthority parseError account container blob
  return ⟨.get, url, some (rangeHeader offset length)⟩

end Client

/-- The URL asks for the blob and for nothing besides. -/
structure Denotes (url : Url) (container blob : String) : Prop where
  query : url.query = none
  fragment : url.fragment = none
  path : url.decodedPath = utf8 ("/" ++ container ++ "/" ++ blob)

/-- The name that the request is for, as the service reads it. -/
def Request.target (request : Request) : Bytes := request.url.decodedPath

theorem AccountName.visible (account : AccountName) :
    Visible account.authority ∧ ∀ x ∈ account.authority, endsAuthority x = false := by
  have hplain : ∀ x : UInt8, (48 ≤ x ∧ x ≤ 57 ∨ 97 ≤ x ∧ x ≤ 122) →
      isControlOrSpace x = false ∧ endsAuthority x = false :=
    forall_byte (by decide +kernel)
  have hsuffix : ∀ x ∈ utf8 ".blob.core.windows.net",
      isControlOrSpace x = false ∧ endsAuthority x = false := by
    decide +kernel
  have hall : ∀ x ∈ account.authority,
      isControlOrSpace x = false ∧ endsAuthority x = false := by
    intro x hx
    rcases List.mem_append.mp hx with hx | hx
    · exact hplain x (account.plain x hx)
    · exact hsuffix x hx
  exact ⟨fun x hx => (hall x hx).1, fun x hx => (hall x hx).2⟩

theorem utf8_url (account container blob : String) :
    utf8 s!"https://{account}.blob.core.windows.net/{container}/{blob}" =
      scheme ++ (utf8 account ++ utf8 ".blob.core.windows.net") ++
        47 :: utf8 (container ++ "/" ++ blob) := by
  have hhost : utf8 ".blob.core.windows.net/" = utf8 ".blob.core.windows.net" ++ [47] := by
    decide +kernel
  simp [toString, utf8_append, hhost, scheme]

theorem utf8_path (container blob : String) :
    utf8 ("/" ++ container ++ "/" ++ blob) = 47 :: utf8 (container ++ "/" ++ blob) := by
  have hslash : utf8 "/" = [47] := by decide +kernel
  simp [utf8_append, hslash]

theorem url_denotes_iff {parseAuthority : Bytes → Option Bytes} {parseError : String}
    {account : AccountName} {host : Bytes}
    (hhost : parseAuthority account.authority = some host) (container blob : String) :
    ∃ u, url parseAuthority parseError account container blob = .ok u ∧
      (Denotes u container blob ↔ Literal (utf8 (container ++ "/" ++ blob))) := by
  obtain ⟨hvisible, hends⟩ := account.visible
  obtain ⟨u, hparse, hiff⟩ :=
    parse?_exact hvisible hends hhost (utf8 (container ++ "/" ++ blob))
  refine ⟨u, ?_, ?_⟩
  · dsimp only [url]
    rw [utf8_url]
    change (match parse? parseAuthority (scheme ++ account.authority ++ _) with
      | some u => Except.ok u
      | none => _) = _
    rw [hparse]
  · rw [← hiff, ← utf8_path]
    exact ⟨fun h => ⟨h.query, h.fragment, h.path⟩, fun h => ⟨h.1, h.2.1, h.2.2⟩⟩

/-- Two requests for two blobs. -/
def Apart (r r' : Except BcError Request) : Prop :=
  ∃ q q', r = .ok q ∧ r' = .ok q' ∧ q.target ≠ q'.target

/-- The URL of a blob denotes it just if its name and that of its container are literal,
and two blobs with such names are asked for as two. -/
theorem blob_url_denotes (parseAuthority : Bytes → Option Bytes) (parseError : String)
    (account : AccountName) {host : Bytes}
    (hhost : parseAuthority account.authority = some host) (container blob : String) :
    (∃ u, url parseAuthority parseError account container blob = .ok u ∧
      (Denotes u container blob ↔ Literal (utf8 (container ++ "/" ++ blob)))) ∧
    ∀ blob', Literal (utf8 (container ++ "/" ++ blob)) →
      Literal (utf8 (container ++ "/" ++ blob')) → blob ≠ blob' →
      Apart (getBlobProperties parseAuthority parseError account container blob)
        (getBlobProperties parseAuthority parseError account container blob') ∧
      ∀ offset length offset' length',
        Apart (getBlobRange parseAuthority parseError account container blob offset length)
          (getBlobRange parseAuthority parseError account container blob' offset' length') := by
  refine ⟨url_denotes_iff hhost container blob, ?_⟩
  intro blob' hliteral hliteral' hne
  obtain ⟨u, hu, hiff⟩ := url_denotes_iff hhost container blob
  obtain ⟨u', hu', hiff'⟩ := url_denotes_iff hhost container blob'
  have htarget : u.decodedPath ≠ u'.decodedPath := by
    rw [(hiff.mpr hliteral).path, (hiff'.mpr hliteral').path]
    intro heq
    have hnames := utf8_inj heq
    exact hne ((String.append_right_inj _).mp hnames)
  constructor
  · rw [getBlobProperties, getBlobProperties, hu, hu']
    exact ⟨_, _, rfl, rfl, htarget⟩
  · intro offset length offset' length'
    rw [getBlobRange, getBlobRange, hu, hu']
    exact ⟨_, _, rfl, rfl, htarget⟩

def sampleAccount : AccountName := ⟨"acct", by decide +kernel⟩

theorem blob_url_denotes_of_blank : Literal (utf8 ("c" ++ "/" ++ "a b%2")) ∧
    ∃ u, url some "invalid" sampleAccount "c" "a b%2" = .ok u ∧ Denotes u "c" "a b%2" := by
  have hliteral : Literal (utf8 ("c" ++ "/" ++ "a b%2")) :=
    ⟨⟨by decide +kernel, by decide +kernel, by decide +kernel, by decide +kernel,
      by decide +kernel⟩, by decide +kernel, by decide +kernel⟩
  obtain ⟨⟨u, hu, hiff⟩, -⟩ :=
    blob_url_denotes some "invalid" sampleAccount rfl "c" "a b%2"
  exact ⟨hliteral, u, hu, hiff.mpr hliteral⟩

/-- The blob `a?b` is asked for as the blob `a`, with a query. -/
theorem question_mark_ends_name :
    ∃ u u', url some "invalid" sampleAccount "c" "a?b" = .ok u ∧
      url some "invalid" sampleAccount "c" "a" = .ok u' ∧
      u.query = some (utf8 "b") ∧ u.decodedPath = u'.decodedPath ∧ Denotes u' "c" "a" ∧
      ¬ Denotes u "c" "a?b" := by
  have hrun : url some "invalid" sampleAccount "c" "a?b" =
      .ok ⟨sampleAccount.authority, [utf8 "c", utf8 "a"], some (utf8 "b"), none⟩ := by
    decide +kernel
  have hrun' : url some "invalid" sampleAccount "c" "a" =
      .ok ⟨sampleAccount.authority, [utf8 "c", utf8 "a"], none, none⟩ := by
    decide +kernel
  refine ⟨_, _, hrun, hrun', rfl, rfl, ⟨rfl, rfl, ?_⟩, ?_⟩
  · decide +kernel
  · intro h
    cases h.query

end BlobCache.Azure
