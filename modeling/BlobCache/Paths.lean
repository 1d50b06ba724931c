import BlobCache.Node.Programs
import Mathlib.Data.List.DropRight

/-!
The string functions with which the mount prefix is taken off and put back:
trimming of slashes, `strip_prefix` and slicing from a byte index. A path is
compared as a list of characters; only `str::get` counts bytes.
-/

namespace BlobCache

open Node

/-- `trim_start_matches('/')`. -/
def trimStartSlashes (s : String) : String := String.ofList (s.toList.dropWhile (· == '/'))

/-- `trim_matches('/')`. -/
def trimSlashes (s : String) : String := trimStartSlashes (trimEndSlashes s)

/-- `s.strip_prefix(p)`. -/
def stripPrefix (p s : String) : Option String :=
  if p.toList.isPrefixOf s.toList then some (String.ofList (s.toList.drop p.toList.length))
  else none

/-- The characters from byte `n` on, unless `n` is inside a character or past
the end. -/
def dropBytes : List Char → Nat → Option (List Char)
  | cs, 0 => some cs
  | [], _ + 1 => none
  | c :: cs, n + 1 => if c.utf8Size ≤ n + 1 then dropBytes cs (n + 1 - c.utf8Size) else none

/-- `s.get(n..)`. -/
def getFrom (s : String) (n : Nat) : Option String := (dropBytes s.toList n).map String.ofList

theorem eq_append_of_toList {s a b : String} (h : s.toList = a.toList ++ b.toList) :
    s = a ++ b := by
  apply String.toList_inj.mp
  rw [h, String.toList_append]

theorem isEmpty_eq_false_iff {s : String} : s.isEmpty = false ↔ s ≠ "" := by
  rw [← Bool.not_eq_true, String.isEmpty_iff]

@[simp] theorem toList_trimEndSlashes (s : String) :
    (trimEndSlashes s).toList = s.toList.rdropWhile (· == '/') := by
  simp [trimEndSlashes, List.rdropWhile]

@[simp] theorem toList_trimStartSlashes (s : String) :
    (trimStartSlashes s).toList = s.toList.dropWhile (· == '/') := by
  simp [trimStartSlashes]

theorem stripPrefix_append (p s : String) : stripPrefix p (p ++ s) = some s := by
  have hdrop : (p ++ s).toList.drop p.toList.length = s.toList := by
    rw [String.toList_append, List.drop_left]
  have hpre : p.toList.isPrefixOf (p ++ s).toList = true := by
    rw [List.isPrefixOf_iff_prefix, String.toList_append]
    exact List.prefix_append _ _
  rw [stripPrefix, if_pos hpre, hdrop, String.ofList_toList]

theorem isPrefixOf_iff {p s : String} :
    p.toList.isPrefixOf s.toList = true ↔ ∃ r, s = p ++ r := by
  rw [List.isPrefixOf_iff_prefix]
  constructor
  · rintro ⟨cs, hcs⟩
    refine ⟨String.ofList cs, eq_append_of_toList ?_⟩
    rw [String.toList_ofList, hcs]
  · rintro ⟨r, rfl⟩
    rw [String.toList_append]
    exact List.prefix_append _ _

private theorem dropBytes_append (a b : List Char) :
    dropBytes (a ++ b) (String.ofList a).utf8ByteSize = some b := by
  induction a with
  | nil => simp [dropBytes]
  | cons c cs ih =>
      have hpos := c.utf8Size_pos
      have hsize : (String.ofList (c :: cs)).utf8ByteSize =
          c.utf8Size + (String.ofList cs).utf8ByteSize := by
        rw [String.ofList_cons, String.utf8ByteSize_append, String.utf8ByteSize_singleton]
      obtain ⟨n, hn⟩ : ∃ n, (String.ofList (c :: cs)).utf8ByteSize = n + 1 :=
        ⟨(String.ofList (c :: cs)).utf8ByteSize - 1, by omega⟩
      have hrest : n + 1 - c.utf8Size = (String.ofList cs).utf8ByteSize := by omega
      rw [hn, List.cons_append, dropBytes, if_pos (by omega), hrest, ih]

theorem getFrom_append (a b : String) : getFrom (a ++ b) a.utf8ByteSize = some b := by
  have hdrop := dropBytes_append a.toList b.toList
  rw [String.ofList_toList, ← String.toList_append] at hdrop
  rw [getFrom, hdrop, Option.map_some, String.ofList_toList]

/-! ## Trimming -/

/-- What is trimmed off at the end are slashes. -/
theorem trimEndSlashes_append_slashes (s : String) :
    ∃ cs : List Char, (∀ c ∈ cs, c = '/') ∧ s.toList = (trimEndSlashes s).toList ++ cs := by
  refine ⟨s.toList.rtakeWhile (· == '/'), ?_, ?_⟩
  · intro c hc
    exact eq_of_beq (List.mem_rtakeWhile_imp (p := (· == '/')) hc)
  · rw [toList_trimEndSlashes, List.rdropWhile, List.rtakeWhile, ← List.reverse_append,
      List.takeWhile_append_dropWhile, List.reverse_reverse]

/-- Trimming stops in the last part that is not all slashes. -/
theorem trimEndSlashes_append {a b : String} (h : trimEndSlashes b ≠ "") :
    trimEndSlashes (a ++ b) = a ++ trimEndSlashes b := by
  apply eq_append_of_toList
  have hne : (b.toList.reverse.dropWhile (· == '/')).isEmpty = false := by
    rw [List.isEmpty_eq_false_iff]
    intro hnil
    apply h
    rw [trimEndSlashes, hnil]
    rfl
  simp only [toList_trimEndSlashes, String.toList_append, List.rdropWhile, List.reverse_append,
    List.dropWhile_append, hne, Bool.false_eq_true, if_false, List.reverse_reverse]

private theorem dropWhile_slashes_append {cs : List Char} (h : ∀ c ∈ cs, c = '/')
    (r : List Char) : (cs ++ r).dropWhile (· == '/') = r.dropWhile (· == '/') := by
  induction cs with
  | nil => rfl
  | cons c cs ih =>
      obtain rfl := h c (by simp)
      rw [List.cons_append, List.dropWhile_cons_of_pos (by decide)]
      exact ih fun d hd => h d (List.mem_cons_of_mem _ hd)

private theorem dropWhile_slash_eq_self {r : List Char} :
    r.dropWhile (· == '/') = r ↔ r.head? ≠ some '/' := by
  cases r with
  | nil => simp
  | cons c cs =>
      by_cases hc : c = '/'
      · subst hc
        have hlen := List.length_dropWhile_le (· == '/') cs
        constructor
        · intro heq
          rw [List.dropWhile_cons_of_pos (by decide)] at heq
          have := congrArg List.length heq
          rw [List.length_cons] at this
          omega
        · intro hne
          exact absurd rfl hne
      · rw [List.dropWhile_cons_of_neg (by simpa using hc)]
        simp [hc]

theorem head_trimStartSlashes (s : String) :
    (trimStartSlashes s).toList.head? ≠ some '/' := by
  rw [← dropWhile_slash_eq_self, toList_trimStartSlashes, List.dropWhile_idempotent]

/-- A prefix that does not begin with a slash, or is nothing but slashes. -/
def PrefixPlain (s : String) : Prop := s.toList.head? ≠ some '/' ∨ ∀ c ∈ s.toList, c = '/'

/-- The two ways of trimming agree. -/
theorem trimEndSlashes_eq_trimSlashes_iff {s : String} :
    trimEndSlashes s = trimSlashes s ↔ PrefixPlain s := by
  obtain ⟨cs, hslashes, hs⟩ := trimEndSlashes_append_slashes s
  have hself : trimEndSlashes s = trimSlashes s ↔ (trimEndSlashes s).toList.head? ≠ some '/' := by
    rw [← String.toList_inj, ← dropWhile_slash_eq_self, trimSlashes, toList_trimStartSlashes,
      eq_comm]
  rw [hself, PrefixPlain]
  by_cases hempty : (trimEndSlashes s).toList = []
  · rw [hempty, List.nil_append] at hs
    rw [hempty, hs]
    exact ⟨fun _ => .inr hslashes, fun _ => by simp⟩
  · have hhead : s.toList.head? = (trimEndSlashes s).toList.head? := by
      rw [hs, List.head?_append_of_ne_nil _ hempty]
    -- the last character that is left is no slash
    have hlast := List.rdropWhile_last_not (· == '/') s.toList
    rw [← toList_trimEndSlashes] at hlast
    have hother : ¬∀ c ∈ s.toList, c = '/' := by
      intro hall
      apply hlast hempty
      have hmem : (trimEndSlashes s).toList.getLast hempty ∈ s.toList := by
        rw [hs]
        exact List.mem_append_left _ (List.getLast_mem hempty)
      rw [hall _ hmem]
      rfl
    rw [hhead]
    simp [hother]

/-- The name stands below the prefix, with one slash in between. -/
def NamedBelow (s name : String) : Prop :=
  (∃ r, name = s ++ r) ∧
    ∃ rest, name = trimEndSlashes s ++ "/" ++ rest ∧ rest.toList.head? ≠ some '/'

theorem append_slash_inj {a b c : String} : a ++ "/" ++ c = b ++ "/" ++ c ↔ a = b := by
  simp only [← String.toList_inj, String.toList_append]
  rw [List.append_cancel_right_eq, List.append_cancel_right_eq]

/-- Taking the prefix off and the slashes after it leaves what comes after the slash. -/
theorem trimStartSlashes_of_below {s r rest : String}
    (h : s ++ r = trimEndSlashes s ++ "/" ++ rest) (hrest : rest.toList.head? ≠ some '/') :
    trimStartSlashes r = rest := by
  obtain ⟨cs, hslashes, hs⟩ := trimEndSlashes_append_slashes s
  have hlists : cs ++ r.toList = ['/'] ++ rest.toList := by
    have := congrArg String.toList h
    rw [String.toList_append, hs, String.toList_append, String.toList_append, List.append_assoc,
      List.append_assoc] at this
    exact List.append_cancel_left this
  apply String.toList_inj.mp
  calc (trimStartSlashes r).toList = (cs ++ r.toList).dropWhile (· == '/') := by
        rw [dropWhile_slashes_append hslashes, toList_trimStartSlashes]
    _ = (['/'] ++ rest.toList).dropWhile (· == '/') := by rw [hlists]
    _ = rest.toList := by
        rw [dropWhile_slashes_append (by simp), dropWhile_slash_eq_self.mpr hrest]

end BlobCache
