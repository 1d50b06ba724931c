import BlobCache.Data.Percent
import Mathlib.Data.List.DropRight

/-!
Parsing the text of an `https` URL: what the parser drops from it, where its path,
query and fragment begin, and what becomes of the segments of the path. The rules
are those of a special scheme: a backslash separates segments as a slash does, dot
segments are resolved, and the path is escaped with its `%`s kept as they are. Every
rule is about ASCII characters, and any other character is escaped byte for byte, so
that texts are bytes here. The rules for the authority are a parameter.

The last result says which texts come through whole: the path of the URL decodes to
the text that was pasted into it just if the text is literal.
-/

namespace BlobCache.Web

open Percent

/-! ## The parser -/

structure Url where
  host : Bytes
  segments : List Bytes
  query : Option Bytes
  fragment : Option Bytes
  deriving DecidableEq

def isControlOrSpace (x : UInt8) : Bool := x ≤ 32

def isTabOrNewline (x : UInt8) : Bool := x == 9 || x == 10 || x == 13

def isSlash (x : UInt8) : Bool := x == 47 || x == 92

/-- The text without the blanks around it and without the tabs and newlines in it. -/
def cleaned (text : Bytes) : Bytes :=
  ((text.dropWhile isControlOrSpace).rdropWhile isControlOrSpace).filter (!isTabOrNewline ·)

/-- The path percent-encode set. -/
def pathSet : EncodeSet where
  mem x := x < 32 || 126 < x || [32, 34, 35, 60, 62, 63, 94, 96, 123, 125].contains x
  percent := by decide
  digit := forall_byte (by decide +kernel)

/-- The ways to write a dot. -/
def dots : List Bytes := [utf8 ".", utf8 "%2e", utf8 "%2E"]

def isSingleDot (segment : Bytes) : Bool := dots.contains segment

def isDoubleDot (segment : Bytes) : Bool :=
  dots.any fun first => dots.any fun second => segment == first ++ second

/-- The segments once `segment` has ended, at a slash or as the last of its path. A dot
segment in the last place leaves an empty one. -/
def close (segments : List Bytes) (segment : Bytes) (last : Bool) : List Bytes :=
  if isDoubleDot segment then segments.dropLast ++ (if last then [[]] else [])
  else if isSingleDot segment then segments ++ (if last then [[]] else [])
  else segments ++ [segment]

def afterHash (text : Bytes) : Option Bytes :=
  match text.dropWhile (· ≠ 35) with
  | [] => none
  | _ :: fragment => some fragment

/-- The path state. Query and fragment are kept without their own escaping. -/
def pathState (host : Bytes) (segments : List Bytes) (buffer : Bytes) : Bytes → Url
  | [] => ⟨host, close segments buffer true, none, none⟩
  | x :: rest =>
      if isSlash x then pathState host (close segments buffer false) [] rest
      else if x = 63 then
        ⟨host, close segments buffer true, some (rest.takeWhile (· ≠ 35)), afterHash rest⟩
      else if x = 35 then ⟨host, close segments buffer true, none, some rest⟩
      else pathState host segments (buffer ++ pathSet.encodeByte x) rest

/-- The path start state: the slash after the authority begins the first segment. -/
def pathStart (host : Bytes) : Bytes → Url
  | [] => pathState host [] [] []
  | x :: rest =>
      if isSlash x then pathState host [] [] rest else pathState host [] [] (x :: rest)

def endsAuthority (x : UInt8) : Bool := isSlash x || x == 63 || x == 35

def scheme : Bytes := utf8 "https://"

/-- The URL of a text that begins with `https://`. -/
def parse? (parseAuthority : Bytes → Option Bytes) (text : Bytes) : Option Url :=
  if scheme <+: cleaned text then
    let rest := (cleaned text).drop scheme.length
    (parseAuthority (rest.takeWhile (!endsAuthority ·))).map fun host =>
      pathStart host (rest.dropWhile (!endsAuthority ·))
  else none

def Url.path (url : Url) : Bytes := url.segments.flatMap (47 :: ·)

/-- The path as a server reads it. -/
def Url.decodedPath (url : Url) : Bytes := decode url.path

/-! ## Segments -/

/-- The decoded path of some segments. -/
def image (segments : List Bytes) : Bytes := segments.flatMap fun s => 47 :: decode s

theorem image_append (a b : List Bytes) : image (a ++ b) = image a ++ image b :=
  List.flatMap_append

theorem length_image_singleton (segment : Bytes) :
    (image [segment]).length = (decode segment).length + 1 := by
  simp [image]

theorem decode_segments (segments : List Bytes) :
    decode (segments.flatMap (47 :: ·)) = image segments := by
  induction segments with
  | nil => rfl
  | cons segment rest ih =>
      have hslash (a b : Bytes) : decode (a ++ 47 :: b) = decode a ++ 47 :: decode b :=
        decode_append_cons (by decide) (by decide) a b
      have hfirst (b : Bytes) : decode (47 :: b) = 47 :: decode b := hslash [] b
      cases rest with
      | nil => simp [image, hfirst]
      | cons next rest =>
          change decode (47 :: (segment ++ 47 :: (next ++ rest.flatMap (47 :: ·)))) =
            (47 :: decode segment) ++ image (next :: rest)
          rw [hfirst, hslash, ← ih, ← hfirst]
          rfl

theorem Url.decodedPath_eq (url : Url) : url.decodedPath = image url.segments :=
  decode_segments url.segments

/-- A segment that is resolved and not kept. -/
def IsDot (segment : Bytes) : Prop := isDoubleDot segment = true ∨ isSingleDot segment = true

theorem IsDot.decode {segment : Bytes} (h : IsDot segment) :
    decode segment = utf8 "." ∨ decode segment = utf8 ".." := by
  have hone : ∀ a ∈ dots, Percent.decode a = utf8 "." := by decide +kernel
  have hpair : ∀ a ∈ dots, ∀ b ∈ dots, Percent.decode (a ++ b) = utf8 ".." := by decide +kernel
  rcases h with hdouble | hsingle
  · obtain ⟨a, ha, hdouble⟩ := List.any_eq_true.mp hdouble
    obtain ⟨b, hb, hdouble⟩ := List.any_eq_true.mp hdouble
    rw [beq_iff_eq.mp hdouble]
    exact .inr (hpair a ha b hb)
  · exact .inl (hone segment (List.contains_iff_mem.mp hsingle))

theorem length_image_dropLast_le (segments : List Bytes) :
    (image segments.dropLast).length ≤ (image segments).length := by
  rcases List.eq_nil_or_concat segments with rfl | ⟨before, last, rfl⟩
  · exact Nat.le_refl _
  · rw [List.concat_eq_append, List.dropLast_concat, image_append, List.length_append]
    omega

/-- A dot segment makes the path shorter than it is written. -/
theorem IsDot.length_close_lt {segment : Bytes} (h : IsDot segment) (segments : List Bytes)
    (last : Bool) :
    (image (close segments segment last)).length < (image (segments ++ [segment])).length := by
  have hpos : 0 < (Percent.decode segment).length := by
    rcases h.decode with hdot | hdot <;> rw [hdot] <;> decide
  have hclosing : (image (if last then [[]] else [])).length ≤ 1 := by
    cases last <;> decide
  have hdrop := length_image_dropLast_le segments
  rw [image_append, List.length_append, length_image_singleton]
  unfold close
  split
  · rw [image_append, List.length_append]
    omega
  · rename_i hdouble
    rw [if_pos (h.resolve_left hdouble), image_append, List.length_append]
    omega

theorem close_of_not_dot {segment : Bytes} (h : ¬ IsDot segment) (segments : List Bytes)
    (last : Bool) : close segments segment last = segments ++ [segment] := by
  unfold IsDot at h
  push Not at h
  rw [close, if_neg h.1, if_neg h.2]

/-- The segments after those of a whole path have ended. -/
def closeAll (segments : List Bytes) : List Bytes → List Bytes
  | [] => segments
  | [segment] => close segments segment true
  | segment :: next :: rest => closeAll (close segments segment false) (next :: rest)

theorem close_length_le (segments : List Bytes) (segment : Bytes) (last : Bool) :
    (image (close segments segment last)).length ≤ (image (segments ++ [segment])).length := by
  by_cases hdot : IsDot segment
  · exact (hdot.length_close_lt segments last).le
  · rw [close_of_not_dot hdot]

theorem closeAll_length_le (segments path : List Bytes) :
    (image (closeAll segments path)).length ≤ (image (segments ++ path)).length := by
  induction path generalizing segments with
  | nil => rw [closeAll, List.append_nil]
  | cons segment rest ih =>
      cases rest with
      | nil => exact close_length_le segments segment true
      | cons next rest =>
          have hstep := close_length_le segments segment false
          have hrest := ih (close segments segment false)
          rw [image_append, List.length_append] at hrest
          rw [closeAll, List.append_cons, image_append, List.length_append]
          omega

theorem closeAll_of_no_dots {path : List Bytes} (h : ∀ s ∈ path, ¬ IsDot s)
    (segments : List Bytes) : closeAll segments path = segments ++ path := by
  induction path generalizing segments with
  | nil => rw [closeAll, List.append_nil]
  | cons segment rest ih =>
      have hsegment := h segment List.mem_cons_self
      cases rest with
      | nil => exact close_of_not_dot hsegment segments true
      | cons next rest =>
          rw [closeAll, close_of_not_dot hsegment,
            ih fun s hs => h s (List.mem_cons_of_mem segment hs), List.append_assoc]
          rfl

/-- A path that keeps its length has no dot segment. -/
theorem no_dots_of_length (segments : List Bytes) {path : List Bytes}
    (h : (image (segments ++ path)).length ≤ (image (closeAll segments path)).length) :
    ∀ s ∈ path, ¬ IsDot s := by
  induction path generalizing segments with
  | nil => simp
  | cons segment rest ih =>
      cases rest with
      | nil =>
          intro s hs hdot
          rw [List.mem_singleton.mp hs] at hdot
          exact absurd (hdot.length_close_lt segments true) (Nat.not_lt.mpr h)
      | cons next rest =>
          have hlong := closeAll_length_le (close segments segment false) (next :: rest)
          rw [closeAll] at h
          rw [List.append_cons, image_append, List.length_append] at h
          rw [image_append, List.length_append] at hlong
          have hsegment : ¬ IsDot segment := by
            intro hdot
            have hlt := hdot.length_close_lt segments false
            omega
          have hrest := ih (segments ++ [segment]) (by
            rw [close_of_not_dot hsegment] at h
            rw [image_append, List.length_append]
            exact h)
          intro s hs
          rcases List.mem_cons.mp hs with rfl | hs
          · exact hsegment
          · exact hrest s hs

theorem length_image_le (segments : List Bytes) :
    (image segments).length ≤ (segments.flatMap (47 :: ·)).length := by
  rw [← decode_segments]
  exact decode_length_le _

/-- Segments that keep their lengths hold no escape. -/
theorem decode_of_length_image {segments : List Bytes}
    (h : (segments.flatMap (47 :: ·)).length ≤ (image segments).length) :
    ∀ s ∈ segments, decode s = s := by
  induction segments with
  | nil => simp
  | cons segment rest ih =>
      have hrest := length_image_le rest
      have hsegment := decode_length_le segment
      simp only [image, List.flatMap_cons, List.length_append, List.length_cons] at h hrest
      intro s hs
      rcases List.mem_cons.mp hs with rfl | hs
      · exact decode_eq_self (by omega)
      · exact ih (by rw [image]; omega) s hs

theorem image_map_encode (segments : List Bytes) :
    image (segments.map pathSet.encode) = image segments := by
  simp only [image, List.flatMap_map, EncodeSet.decode_encode]

/-! ## The path of a text -/

theorem exists_splitOnP (text : Bytes) :
    ∃ segment rest, text.splitOnP isSlash = segment :: rest :=
  List.exists_cons_of_ne_nil (List.splitOnP_ne_nil isSlash text)

/-- The loop over a text without query and fragment closes its segments one by one. The
buffer holds what it has read of the first of them. -/
theorem pathState_eq (host : Bytes) (segments : List Bytes) (pre : Bytes) {text : Bytes}
    (hquery : 63 ∉ text) (hfragment : 35 ∉ text) :
    pathState host segments (pathSet.encode pre) text =
      ⟨host, closeAll segments
        (((text.splitOnP isSlash).modifyHead (pre ++ ·)).map pathSet.encode), none, none⟩ := by
  induction text generalizing segments pre with
  | nil => simp [pathState, closeAll]
  | cons x text ih =>
      obtain ⟨hx, hquery⟩ := List.ne_and_not_mem_of_not_mem_cons hquery
      obtain ⟨hx', hfragment⟩ := List.ne_and_not_mem_of_not_mem_cons hfragment
      obtain ⟨segment, rest, hsplit⟩ := exists_splitOnP text
      rw [pathState, List.splitOnP_cons_eq_if_modifyHead, hsplit]
      split
      · have hrest := ih (close segments (pathSet.encode pre) false) [] hquery hfragment
        rw [hsplit] at hrest
        simpa [closeAll] using hrest
      · rw [if_neg hx.symm, if_neg hx'.symm]
        have hrest := ih segments (pre ++ [x]) hquery hfragment
        rw [hsplit] at hrest
        simpa [EncodeSet.encode] using hrest

theorem pathState_plain {host : Bytes} {segments : List Bytes} {buffer text : Bytes}
    (hquery : (pathState host segments buffer text).query = none)
    (hfragment : (pathState host segments buffer text).fragment = none) :
    63 ∉ text ∧ 35 ∉ text := by
  induction text generalizing segments buffer with
  | nil => simp
  | cons x text ih =>
      unfold pathState at hquery hfragment
      split at hquery
      · rename_i hslash
        rw [if_pos hslash] at hfragment
        have hx : x ≠ 63 ∧ x ≠ 35 := by
          constructor <;> rintro rfl <;> cases hslash
        obtain ⟨hq, hf⟩ := ih hquery hfragment
        exact ⟨List.not_mem_cons_of_ne_of_not_mem hx.1.symm hq,
          List.not_mem_cons_of_ne_of_not_mem hx.2.symm hf⟩
      · rename_i hslash
        rw [if_neg hslash] at hfragment
        split at hquery
        · cases hquery
        · rename_i hx
          rw [if_neg hx] at hfragment
          split at hquery
          · rename_i hx'
            rw [if_pos hx'] at hfragment
            cases hfragment
          · rename_i hx'
            rw [if_neg hx'] at hfragment
            obtain ⟨hq, hf⟩ := ih hquery hfragment
            exact ⟨List.not_mem_cons_of_ne_of_not_mem (Ne.symm hx) hq,
              List.not_mem_cons_of_ne_of_not_mem (Ne.symm hx') hf⟩

def unslash (x : UInt8) : UInt8 := if isSlash x then 47 else x

theorem flatMap_splitOnP (text : Bytes) :
    (text.splitOnP isSlash).flatMap (47 :: ·) = 47 :: text.map unslash := by
  induction text with
  | nil => simp
  | cons x text ih =>
      obtain ⟨segment, rest, hsplit⟩ := exists_splitOnP text
      rw [hsplit] at ih
      rw [List.splitOnP_cons_eq_if_modifyHead, hsplit, List.map_cons, unslash]
      split
      · rw [List.flatMap_cons, ih]
        rfl
      · simpa using ih

theorem map_unslash_eq_self_iff (text : Bytes) : text.map unslash = text ↔ 92 ∉ text := by
  induction text with
  | nil => simp
  | cons x text ih =>
      have hx : unslash x = x ↔ 92 ≠ x := by
        unfold unslash isSlash
        by_cases h47 : x = 47
        · subst h47
          decide
        · by_cases h92 : x = 92
          · subst h92
            decide
          · simp [h47, h92, Ne.symm h92]
      rw [List.map_cons, List.cons.injEq, ih, hx, List.mem_cons, not_or]

/-! ## Literal texts -/

/-- A text that is its own path once the input has been cleaned: nothing in it separates,
escapes or is resolved. -/
structure Verbatim (text : Bytes) : Prop where
  query : 63 ∉ text
  fragment : 35 ∉ text
  backslash : 92 ∉ text
  escapes : hasEscape text = false
  dots : ∀ s ∈ text.splitOnP isSlash, s ≠ utf8 "." ∧ s ≠ utf8 ".."

/-- A text that is its own path at the end of the input: nothing of it is dropped either. -/
structure Literal (text : Bytes) : Prop extends Verbatim text where
  blanks : ∀ x ∈ text, isTabOrNewline x = false
  ending : ∀ x ∈ text.getLast?, isControlOrSpace x = false

/-- What is left of a text at the end of the input. -/
def keptEnd (text : Bytes) : Bytes :=
  (text.rdropWhile isControlOrSpace).filter (!isTabOrNewline ·)

theorem keptEnd_sublist (text : Bytes) : (keptEnd text).Sublist text :=
  List.filter_sublist.trans (List.rdropWhile_prefix _ text).sublist

theorem keptEnd_eq_self_iff (text : Bytes) : keptEnd text = text ↔
    (∀ x ∈ text, isTabOrNewline x = false) ∧ ∀ x ∈ text.getLast?, isControlOrSpace x = false := by
  have hending : text.rdropWhile isControlOrSpace = text ↔
      ∀ x ∈ text.getLast?, isControlOrSpace x = false := by
    rw [List.rdropWhile_eq_self_iff]
    constructor
    · intro h x hx
      obtain ⟨hne, rfl⟩ := List.mem_getLast?_eq_getLast hx
      exact Bool.eq_false_iff.mpr (h hne)
    · intro h hne
      exact Bool.eq_false_iff.mp (h _ (List.getLast?_eq_some_getLast hne))
  have hblanks : text.filter (!isTabOrNewline ·) = text ↔
      ∀ x ∈ text, isTabOrNewline x = false := by
    simp
  constructor
  · intro h
    have hprefix : text.rdropWhile isControlOrSpace <+: text :=
      List.rdropWhile_prefix _ text
    have hkept : text.rdropWhile isControlOrSpace = text := by
      apply hprefix.eq_of_length_le
      have hle := List.length_filter_le (!isTabOrNewline ·) (text.rdropWhile isControlOrSpace)
      unfold keptEnd at h
      rwa [h] at hle
    rw [keptEnd, hkept] at h
    exact ⟨hblanks.mp h, hending.mp hkept⟩
  · rintro ⟨hb, he⟩
    rw [keptEnd, hending.mpr he, hblanks.mpr hb]

theorem pathState_segments (host : Bytes) {text : Bytes} (hquery : 63 ∉ text)
    (hfragment : 35 ∉ text) : pathState host [] [] text =
      ⟨host, closeAll [] ((text.splitOnP isSlash).map pathSet.encode), none, none⟩ := by
  obtain ⟨segment, rest, hsplit⟩ := exists_splitOnP text
  have hloop := pathState_eq host [] [] hquery hfragment
  rw [hsplit] at hloop ⊢
  simpa using hloop

theorem Verbatim.decodedPath {text : Bytes} (h : Verbatim text) (host : Bytes) :
    (pathState host [] [] text).query = none ∧ (pathState host [] [] text).fragment = none ∧
      (pathState host [] [] text).decodedPath = 47 :: text := by
  have hjoin := flatMap_splitOnP text
  rw [(map_unslash_eq_self_iff text).mpr h.backslash] at hjoin
  have himage : image (text.splitOnP isSlash) = 47 :: text := by
    rw [← decode_segments, hjoin, decode_of_plain (escaped?_of_ne (by decide) text),
      (hasEscape_eq_false_iff text).mp h.escapes]
  have hdecode : ∀ s ∈ text.splitOnP isSlash, decode s = s :=
    decode_of_length_image (by rw [hjoin, himage])
  have hdots : ∀ s ∈ (text.splitOnP isSlash).map pathSet.encode, ¬ IsDot s := by
    intro s hs hdot
    obtain ⟨raw, hraw, rfl⟩ := List.mem_map.mp hs
    have hcases := hdot.decode
    rw [EncodeSet.decode_encode, hdecode raw hraw] at hcases
    rcases hcases with heq | heq
    · exact (h.dots raw hraw).1 heq
    · exact (h.dots raw hraw).2 heq
  rw [Url.decodedPath_eq, pathState_segments host h.query h.fragment]
  dsimp only
  rw [closeAll_of_no_dots hdots, List.nil_append, image_map_encode, himage]
  exact ⟨rfl, rfl, rfl⟩

/-- Each step to the decoded path can only shorten a text. A path that decodes to a text at
least as long took none of them. -/
theorem verbatim_of_decodedPath {host kept text : Bytes} (hsub : kept.Sublist text)
    (hquery : (pathState host [] [] kept).query = none)
    (hfragment : (pathState host [] [] kept).fragment = none)
    (hpath : (pathState host [] [] kept).decodedPath = 47 :: text) :
    kept = text ∧ Verbatim text := by
  obtain ⟨hquery, hfragment⟩ := pathState_plain hquery hfragment
  rw [Url.decodedPath_eq, pathState_segments host hquery hfragment] at hpath
  have hjoin := flatMap_splitOnP kept
  have hclose := closeAll_length_le [] ((kept.splitOnP isSlash).map pathSet.encode)
  rw [List.nil_append, image_map_encode, hpath] at hclose
  have himage := length_image_le (kept.splitOnP isSlash)
  have hsublen := hsub.length_le
  have hjoinlen := congrArg List.length hjoin
  simp only [List.length_cons, List.length_map] at hclose hjoinlen
  have hkept : kept = text := hsub.eq_of_length_le (by omega)
  subst hkept
  have hdots : ∀ s ∈ (kept.splitOnP isSlash).map pathSet.encode, ¬ IsDot s := by
    apply no_dots_of_length []
    rw [List.nil_append, image_map_encode, hpath, List.length_cons]
    omega
  have hdecode : ∀ s ∈ kept.splitOnP isSlash, decode s = s :=
    decode_of_length_image (by omega)
  have hraw : image (kept.splitOnP isSlash) = 47 :: kept.map unslash := by
    rw [← hjoin, image]
    apply List.flatMap_congr
    intro s hs
    rw [hdecode s hs]
  rw [closeAll_of_no_dots hdots, List.nil_append, image_map_encode] at hpath
  have hunslash : kept.map unslash = kept := (List.cons.inj (hraw.symm.trans hpath)).2
  have hescape : decode kept = kept := by
    have hwhole := decode_segments (kept.splitOnP isSlash)
    rw [hjoin, hunslash, hpath, decode_of_plain (escaped?_of_ne (by decide) kept)] at hwhole
    exact (List.cons.inj hwhole).2
  have hsegments : ∀ s ∈ kept.splitOnP isSlash, s ≠ utf8 "." ∧ s ≠ utf8 ".." := by
    intro s hs
    have hnot := hdots _ (List.mem_map_of_mem hs)
    constructor
    · rintro rfl
      exact hnot (.inr (by decide))
    · rintro rfl
      exact hnot (.inl (by decide))
  exact ⟨rfl, hquery, hfragment, (map_unslash_eq_self_iff kept).mp hunslash,
    (hasEscape_eq_false_iff kept).mpr hescape, hsegments⟩

/-- A part of the text before the path that the parser leaves as it is. -/
def Visible (b : Bytes) : Prop := ∀ x ∈ b, isControlOrSpace x = false

theorem cleaned_append {front : Bytes} (hfront : Visible front) (text : Bytes) :
    cleaned (front ++ 47 :: text) = front ++ 47 :: keptEnd text := by
  have hnewline : ∀ x, isControlOrSpace x = false → isTabOrNewline x = false :=
    forall_byte (by decide +kernel)
  have hslash : isControlOrSpace 47 = false := by decide
  have hstart : (front ++ 47 :: text).dropWhile isControlOrSpace = front ++ 47 :: text := by
    cases front with
    | nil => exact List.dropWhile_cons_of_neg (by rw [hslash]; decide)
    | cons x front =>
        have hx := hfront x List.mem_cons_self
        exact List.dropWhile_cons_of_neg (by rw [hx]; decide)
  have hend : (front ++ 47 :: text).rdropWhile isControlOrSpace =
      front ++ 47 :: text.rdropWhile isControlOrSpace := by
    unfold List.rdropWhile
    rw [List.reverse_append, List.reverse_cons, List.append_assoc, List.dropWhile_append]
    split
    · rename_i hempty
      rw [List.isEmpty_iff.mp hempty]
      simp [hslash]
    · simp
  have hkept : front.filter (!isTabOrNewline ·) = front := by
    rw [List.filter_eq_self]
    intro x hx
    simp [hnewline x (hfront x hx)]
  rw [cleaned, hstart, hend, List.filter_append, hkept,
    List.filter_cons_of_pos (by decide), keptEnd]

/-- The URL of a text pasted behind an authority. -/
theorem parse?_exact {parseAuthority : Bytes → Option Bytes} {authority host : Bytes}
    (hvisible : Visible authority) (hends : ∀ x ∈ authority, endsAuthority x = false)
    (hparse : parseAuthority authority = some host) (text : Bytes) :
    ∃ url, parse? parseAuthority (scheme ++ authority ++ 47 :: text) = some url ∧
      ((url.query = none ∧ url.fragment = none ∧ url.decodedPath = 47 :: text) ↔
        Literal text) := by
  refine ⟨pathState host [] [] (keptEnd text), ?_, ?_⟩
  · have hfront : Visible (scheme ++ authority) := by
      have hscheme : Visible scheme := by
        unfold Visible
        decide +kernel
      intro x hx
      rcases List.mem_append.mp hx with hx | hx
      · exact hscheme x hx
      · exact hvisible x hx
    have hnot : ∀ x ∈ authority, (!endsAuthority x) = true := by
      intro x hx
      rw [hends x hx]
      rfl
    unfold parse?
    rw [cleaned_append hfront, List.append_assoc, if_pos (List.prefix_append _ _),
      List.drop_left]
    dsimp only
    rw [List.takeWhile_append_of_pos hnot, List.dropWhile_append_of_pos hnot,
      List.takeWhile_cons_of_neg (by decide), List.dropWhile_cons_of_neg (by decide),
      List.append_nil, hparse]
    rfl
  · constructor
    · rintro ⟨hquery, hfragment, hpath⟩
      obtain ⟨hkept, hverbatim⟩ :=
        verbatim_of_decodedPath (keptEnd_sublist text) hquery hfragment hpath
      obtain ⟨hblanks, hending⟩ := (keptEnd_eq_self_iff text).mp hkept
      exact ⟨hverbatim, hblanks, hending⟩
    · intro h
      rw [(keptEnd_eq_self_iff text).mpr ⟨h.blanks, h.ending⟩]
      exact h.toVerbatim.decodedPath host

end BlobCache.Web
