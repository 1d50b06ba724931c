import BlobCache.ChunkKey
import BlobCache.Data.Percent
import Mathlib.Data.List.TakeWhile

/-!
The request for a chunk over HTTP: the URL that `TcpPeerClient::fetch_chunk`
builds, and what `PeerService::handle` reads from the path and the query that
reach it. The mount travels in the path and the blob in the query, which are
decoded by different rules. Texts are given by their bytes, and the HTTP layers
pass on path and query as they stand in the URL.
-/

namespace BlobCache.Http

open Percent

def urlencodingEncode (s : String) : Bytes := encode (utf8 s)

def urlencodingDecode (b : Bytes) : Option String := ofUtf8? (decode b)

theorem urlencodingDecode_encode (s : String) :
    urlencodingDecode (urlencodingEncode s) = some s := by
  rw [urlencodingDecode, urlencodingEncode, decode_encode, ofUtf8?_eq_some]

/-! ## The client -/

/-- The URL of a peer: a scheme and an authority, without a path. -/
structure PeerUrl where
  scheme : Bytes
  authority : Bytes
  scheme_plain : 58 ∉ scheme
  authority_plain : ∀ x ∈ authority, x ≠ 35 ∧ x ≠ 47 ∧ x ≠ 63

def PeerUrl.bytes (peer : PeerUrl) : Bytes := peer.scheme ++ utf8 "://" ++ peer.authority

/-- The URL of `TcpPeerClient::fetch_chunk`. -/
def chunkUrl (peerUrl : Bytes) (key : ChunkKey) (expectedLen waitMs : UInt32) : Bytes :=
  peerUrl ++ utf8 "/v1/chunk/" ++ urlencodingEncode key.mount ++
    utf8 "?blob=" ++ urlencodingEncode key.blob ++ utf8 "&offset=" ++ utf8 (toString key.offset) ++
    utf8 "&len=" ++ utf8 (toString expectedLen.toNat) ++
    utf8 "&wait_ms=" ++ utf8 (toString waitMs.toNat)

/-! ## The transport -/

/-- `req.uri().path()` and `req.uri().query()`. -/
structure Target where
  path : Bytes
  query : Option Bytes
  deriving DecidableEq

/-- What the server is sent of a URL: all after the authority, without the fragment. -/
def target? (url : Bytes) : Option Target :=
  match url.dropWhile (· ≠ 58) with
  | 58 :: 47 :: 47 :: rest =>
      let tail := (rest.dropWhile (· ∉ [35, 47, 63])).takeWhile (· ≠ 35)
      let path := tail.takeWhile (· ≠ 63)
      let query := match tail.dropWhile (· ≠ 63) with
        | [] => none
        | _ :: query => some query
      some ⟨if path = [] then [47] else path, query⟩
  | _ => none

/-! ## The server -/

inductive Method where
  | get
  | other
  deriving DecidableEq

/-- What `handle_chunk` reads from a request. -/
structure ChunkRequest where
  key : ChunkKey
  expectedLen : Nat
  waitMs : Nat
  deriving DecidableEq

inductive Routed where
  | health
  | chunk (request : ChunkRequest)
  | badRequest (why : String)
  | notFound
  deriving DecidableEq

/-- `splitn`: at most `n` parts, the last one with the separators left in it. -/
def splitn : Nat → UInt8 → Bytes → List Bytes
  | 0, _, _ => []
  | 1, _, b => [b]
  | n + 2, c, b =>
      match b.dropWhile (· ≠ c) with
      | [] => [b]
      | _ :: rest => b.takeWhile (· ≠ c) :: splitn (n + 1) c rest

def orBad {α : Type} (why : String) : Option α → Except String α
  | some a => .ok a
  | none => .error why

/-- The part of `handle_chunk` that reads the request. -/
def parseChunk (lossy : Bytes → String) (t : Target) : Except String ChunkRequest := do
  let part ← orBad "path" (splitn 4 47 t.path)[3]?
  let mount ← orBad "mount" (urlencodingDecode part)
  -- of two fields with one name the last one counts
  let qs : FinMap String String :=
    (formParse lossy (t.query.getD [])).foldl (fun qs f => qs.insert f.1 f.2) ∅
  let blob ← orBad "blob" (qs.get? "blob")
  let offset ← orBad "offset" ((qs.get? "offset").bind (parseUnsigned (2 ^ 64)))
  let waitMs := ((qs.get? "wait_ms").bind (parseUnsigned (2 ^ 32))).getD 0
  let expectedLen := ((qs.get? "len").bind (parseUnsigned (2 ^ 64))).getD 0
  return ⟨⟨mount, blob, offset⟩, expectedLen, waitMs⟩

def handle (lossy : Bytes → String) (method : Method) (t : Target) : Routed :=
  if method = .get ∧ t.path = utf8 "/health" then .health
  else if method = .get ∧ (utf8 "/v1/chunk/").isPrefixOf t.path then
    match parseChunk lossy t with
    | .ok request => .chunk request
    | .error why => .badRequest why
  else .notFound

/-! ## The round trip -/

/-- The path of the request for a chunk. -/
def chunkPath (key : ChunkKey) : Bytes := utf8 "/v1/chunk/" ++ urlencodingEncode key.mount

/-- The query of the request for a chunk. -/
def chunkQuery (key : ChunkKey) (expectedLen waitMs : UInt32) : Bytes :=
  utf8 "blob" ++ 61 :: (urlencodingEncode key.blob ++ 38 ::
    (utf8 "offset" ++ 61 :: (utf8 (toString key.offset) ++ 38 ::
      (utf8 "len" ++ 61 :: (utf8 (toString expectedLen.toNat) ++ 38 ::
        (utf8 "wait_ms" ++ 61 :: utf8 (toString waitMs.toNat)))))))

theorem chunkUrl_eq (peerUrl : Bytes) (key : ChunkKey) (expectedLen waitMs : UInt32) :
    chunkUrl peerUrl key expectedLen waitMs =
      peerUrl ++ (chunkPath key ++ 63 :: chunkQuery key expectedLen waitMs) := by
  have hblob : utf8 "?blob=" = 63 :: (utf8 "blob" ++ [61]) := by decide
  have hoffset : utf8 "&offset=" = 38 :: (utf8 "offset" ++ [61]) := by decide
  have hlen : utf8 "&len=" = 38 :: (utf8 "len" ++ [61]) := by decide
  have hwait : utf8 "&wait_ms=" = 38 :: (utf8 "wait_ms" ++ [61]) := by decide
  simp only [chunkUrl, chunkPath, chunkQuery, hblob, hoffset, hlen, hwait, List.append_assoc,
    List.cons_append, List.nil_append]

theorem not_mem_urlencodingEncode {c : UInt8} (hpercent : c ≠ 37)
    (hc : isAlphanumeric c = false) (s : String) : c ∉ urlencodingEncode s := by
  intro hmem
  rcases mem_encode hmem with heq | hplain
  · exact hpercent heq
  · rw [hplain] at hc
    cases hc

theorem not_mem_chunkQuery (key : ChunkKey) (expectedLen waitMs : UInt32) :
    35 ∉ chunkQuery key expectedLen waitMs := by
  have hnumber (n : Nat) : 35 ∉ utf8 (toString n) := by
    intro hmem
    exact absurd (alphanumeric_toString n 35 hmem) (by decide)
  have hblob := not_mem_urlencodingEncode (c := 35) (by decide) (by decide) key.blob
  have hnames : 35 ∉ utf8 "blob" ∧ 35 ∉ utf8 "offset" ∧ 35 ∉ utf8 "len" ∧
      35 ∉ utf8 "wait_ms" := by decide
  simp only [chunkQuery, List.mem_append, List.mem_cons, hnumber, hblob, hnames]
  decide

theorem takeWhile_ne_append {c : UInt8} {b : Bytes} (hb : c ∉ b) (rest : Bytes) :
    (b ++ c :: rest).takeWhile (· ≠ c) = b ∧ (b ++ c :: rest).dropWhile (· ≠ c) = c :: rest := by
  have hne : ∀ x ∈ b, decide (x ≠ c) = true := by
    intro x hx
    rw [decide_eq_true_iff]
    rintro rfl
    exact hb hx
  rw [List.takeWhile_append_of_pos hne, List.dropWhile_append_of_pos hne]
  simp

theorem target?_append (peer : PeerUrl) {path query : Bytes} (hfragment : 35 ∉ path)
    (hends : 63 ∉ path) (hquery : 35 ∉ query) :
    target? (peer.bytes ++ (47 :: path ++ 63 :: query)) = some ⟨47 :: path, some query⟩ := by
  have hstart : (peer.bytes ++ (47 :: path ++ 63 :: query)).dropWhile (· ≠ 58) =
      58 :: 47 :: 47 :: (peer.authority ++ (47 :: path ++ 63 :: query)) := by
    have hsep : utf8 "://" = [58, 47, 47] := by decide
    rw [PeerUrl.bytes, hsep, List.append_assoc, List.append_assoc]
    exact (takeWhile_ne_append peer.scheme_plain _).2
  have hauthority : (peer.authority ++ (47 :: path ++ 63 :: query)).dropWhile (· ∉ [35, 47, 63]) =
      47 :: path ++ 63 :: query := by
    rw [List.dropWhile_append_of_pos]
    · simp
    · intro x hx
      simpa using peer.authority_plain x hx
  have hwhole : (47 :: path ++ 63 :: query).takeWhile (· ≠ 35) = 47 :: path ++ 63 :: query := by
    rw [List.takeWhile_eq_self_iff]
    intro x hx
    rw [decide_eq_true_iff]
    rintro rfl
    simp [hfragment, hquery] at hx
  have hmark : 63 ∉ 47 :: path := by simp [hends]
  obtain ⟨htake, hdrop⟩ := takeWhile_ne_append hmark query
  rw [target?, hstart]
  simp only [hauthority, hwhole, htake, hdrop]
  rfl

theorem target?_chunkUrl (peer : PeerUrl) (key : ChunkKey) (expectedLen waitMs : UInt32) :
    target? (chunkUrl peer.bytes key expectedLen waitMs) =
      some ⟨chunkPath key, some (chunkQuery key expectedLen waitMs)⟩ := by
  have hpath : chunkPath key = 47 :: (utf8 "v1/chunk/" ++ urlencodingEncode key.mount) := by
    have hleading : utf8 "/v1/chunk/" = 47 :: utf8 "v1/chunk/" := by decide
    rw [chunkPath, hleading]
    rfl
  have hplain {c : UInt8} (hpercent : c ≠ 37) (hc : isAlphanumeric c = false)
      (hroute : c ∉ utf8 "v1/chunk/") : c ∉ utf8 "v1/chunk/" ++ urlencodingEncode key.mount := by
    rw [List.mem_append, not_or]
    exact ⟨hroute, not_mem_urlencodingEncode hpercent hc key.mount⟩
  rw [chunkUrl_eq, hpath]
  apply target?_append peer
  · exact hplain (by decide) (by decide) (by decide)
  · exact hplain (by decide) (by decide) (by decide)
  · exact not_mem_chunkQuery key expectedLen waitMs

theorem splitn_append {c : UInt8} {b : Bytes} (hb : c ∉ b) (n : Nat) (rest : Bytes) :
    splitn (n + 2) c (b ++ c :: rest) = b :: splitn (n + 1) c rest := by
  obtain ⟨htake, hdrop⟩ := takeWhile_ne_append hb rest
  rw [splitn, hdrop, htake]

theorem splitn_chunkPath (key : ChunkKey) :
    splitn 4 47 (chunkPath key) =
      [[], utf8 "v1", utf8 "chunk", urlencodingEncode key.mount] := by
  have hshape : chunkPath key =
      [] ++ 47 :: (utf8 "v1" ++ 47 :: (utf8 "chunk" ++ 47 :: urlencodingEncode key.mount)) := by
    have hleading : utf8 "/v1/chunk/" =
        [] ++ 47 :: (utf8 "v1" ++ 47 :: (utf8 "chunk" ++ [47])) := by decide
    simp only [chunkPath, hleading, List.append_assoc, List.cons_append, List.nil_append]
  rw [hshape, splitn_append (by decide), splitn_append (by decide), splitn_append (by decide)]
  rfl

theorem formParse_chunkQuery (lossy : Bytes → String) (key : ChunkKey)
    (expectedLen waitMs : UInt32) :
    formParse lossy (chunkQuery key expectedLen waitMs) =
      [("blob", key.blob), ("offset", toString key.offset), ("len", toString expectedLen.toNat),
        ("wait_ms", toString waitMs.toNat)] := by
  have hnumber (n : Nat) : Component (toString n) (utf8 (toString n)) :=
    Component.of_alphanumeric (alphanumeric_toString n)
  have hblob : Component "blob" (utf8 "blob") := by constructor <;> decide
  have hoffset : Component "offset" (utf8 "offset") := by constructor <;> decide
  have hlen : Component "len" (utf8 "len") := by constructor <;> decide
  have hwait : Component "wait_ms" (utf8 "wait_ms") := by constructor <;> decide
  rw [chunkQuery, urlencodingEncode, formParse_cons hblob (Component.encode key.blob),
    formParse_cons hoffset (hnumber _), formParse_cons hlen (hnumber _),
    formParse_last hwait (hnumber _)]

theorem parseChunk_chunk (lossy : Bytes → String) {key : ChunkKey} (hoffset : key.offset < 2 ^ 64)
    (expectedLen waitMs : UInt32) :
    parseChunk lossy ⟨chunkPath key, some (chunkQuery key expectedLen waitMs)⟩ =
      .ok ⟨key, expectedLen.toNat, waitMs.toNat⟩ := by
  have hlen : expectedLen.toNat < 2 ^ 64 := Nat.lt_trans expectedLen.toNat_lt (by decide)
  have hoffset := parseUnsigned_toString hoffset
  have hlen := parseUnsigned_toString hlen
  have hwait := parseUnsigned_toString waitMs.toNat_lt
  unfold parseChunk
  simp only [splitn_chunkPath, formParse_chunkQuery, Option.getD_some, List.foldl_cons,
    List.foldl_nil, List.getElem?_cons_succ, List.getElem?_cons_zero]
  generalize toString key.offset = offset at hoffset
  generalize toString expectedLen.toNat = expectedLen' at hlen
  generalize toString waitMs.toNat = waitMs' at hwait
  simp [-Nat.reducePow, FinMap.get?_insert, orBad, urlencodingDecode_encode, hoffset, hlen, hwait,
    bind, Except.bind, pure, Except.pure]

theorem handle_chunk (lossy : Bytes → String) {key : ChunkKey} (hoffset : key.offset < 2 ^ 64)
    (expectedLen waitMs : UInt32) :
    handle lossy .get ⟨chunkPath key, some (chunkQuery key expectedLen waitMs)⟩ =
      .chunk ⟨key, expectedLen.toNat, waitMs.toNat⟩ := by
  have hroute : (utf8 "/v1/chunk/").isPrefixOf (chunkPath key) = true :=
    List.isPrefixOf_iff_prefix.mpr (List.prefix_append _ _)
  have hhealth : chunkPath key ≠ utf8 "/health" := by
    intro heq
    rw [heq] at hroute
    revert hroute
    decide
  rw [handle, if_neg fun h => hhealth h.2, if_pos ⟨rfl, hroute⟩, parseChunk_chunk lossy hoffset]

/-- The server reads back the request that the client wrote into the URL, whatever
the mount and the blob are called, so that two requests are never taken for one. -/
theorem handle_chunkUrl (lossy : Bytes → String) (peer : PeerUrl) (key : ChunkKey)
    (hoffset : key.offset < 2 ^ 64) (expectedLen waitMs : UInt32) :
    (∃ t, target? (chunkUrl peer.bytes key expectedLen waitMs) = some t ∧
      handle lossy .get t = .chunk ⟨key, expectedLen.toNat, waitMs.toNat⟩) ∧
    ∀ (peer' : PeerUrl) (key' : ChunkKey) (expectedLen' waitMs' : UInt32),
      key'.offset < 2 ^ 64 →
      target? (chunkUrl peer'.bytes key' expectedLen' waitMs') =
        target? (chunkUrl peer.bytes key expectedLen waitMs) →
      key' = key ∧ expectedLen' = expectedLen ∧ waitMs' = waitMs := by
  constructor
  · exact ⟨_, target?_chunkUrl peer key expectedLen waitMs,
      handle_chunk lossy hoffset expectedLen waitMs⟩
  · intro peer' key' expectedLen' waitMs' hoffset' hsame
    rw [target?_chunkUrl, target?_chunkUrl] at hsame
    have hread := handle_chunk lossy hoffset' expectedLen' waitMs'
    rw [Option.some.inj hsame, handle_chunk lossy hoffset, Routed.chunk.injEq,
      ChunkRequest.mk.injEq] at hread
    obtain ⟨hkey, hlen, hwait⟩ := hread
    exact ⟨hkey.symm, UInt32.toNat_inj.mp hlen.symm, UInt32.toNat_inj.mp hwait.symm⟩

def samplePeer : PeerUrl where
  scheme := utf8 "http"
  authority := utf8 "10.0.0.7:7001"
  scheme_plain := by decide
  authority_plain := by decide +kernel

/-- Every separator of a path or of a query, and characters outside ASCII. -/
def oddKey : ChunkKey := ⟨"data/sets %2F", "a+b&len=7?é#/../x", 4096⟩

theorem handle_chunkUrl_odd :
    ∃ t, target? (chunkUrl samplePeer.bytes oddKey 65536 250) = some t ∧
      handle (fun _ => "") .get t = .chunk ⟨oddKey, 65536, 250⟩ :=
  (handle_chunkUrl (fun _ => "") samplePeer oddKey (by decide) 65536 250).1

end BlobCache.Http
