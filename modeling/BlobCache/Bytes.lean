import Mathlib.Algebra.Order.Ring.Nat
import Mathlib.Data.List.Basic

/-!
Byte strings and the fixed-width arithmetic the daemon uses on offsets and
lengths. A `u64` is a natural number; the operations that saturate or check
for overflow are written out.
-/

namespace BlobCache

abbrev Bytes := List UInt8

/-- A SHA-256 digest. -/
abbrev Digest := Vector UInt8 32

def u64Max : Nat := 2 ^ 64 - 1

def saturatingAdd (a b : Nat) : Nat := min (a + b) u64Max

def checkedAdd (a b : Nat) : Option Nat := if a + b ≤ u64Max then some (a + b) else none

theorem checkedAdd_eq {a b n : Nat} (h : checkedAdd a b = some n) : a + b = n := by
  unfold checkedAdd at h
  split at h
  · exact Option.some.inj h
  · cases h

/-- `x.to_le_bytes()` of an integer of `n` bytes. -/
def leBytes (n x : Nat) : Bytes := (List.range n).map fun i => UInt8.ofNat (x / 256 ^ i)

/-- `from_le_bytes`, for any number of bytes. -/
def ofLeBytes (b : Bytes) : Nat := b.foldr (fun x acc => x.toNat + 256 * acc) 0

@[simp] theorem leBytes_length (n x : Nat) : (leBytes n x).length = n := by
  simp [leBytes]

theorem leBytes_succ (n x : Nat) :
    leBytes (n + 1) x = UInt8.ofNat x :: leBytes n (x / 256) := by
  simp only [leBytes, List.range_succ_eq_map, List.map_cons, List.map_map, Nat.pow_zero,
    Nat.div_one]
  congr 1
  apply List.map_congr_left
  intro i _
  simp only [Function.comp, Nat.succ_eq_add_one, Nat.pow_succ']
  rw [Nat.div_div_eq_div_mul]

theorem ofLeBytes_leBytes (n : Nat) {x : Nat} (hx : x < 256 ^ n) :
    ofLeBytes (leBytes n x) = x := by
  induction n generalizing x with
  | zero =>
      have hzero : x = 0 := by simpa using hx
      subst hzero
      rfl
  | succ n ih =>
      rw [leBytes_succ]
      change (UInt8.ofNat x).toNat + 256 * ofLeBytes (leBytes n (x / 256)) = x
      rw [ih (Nat.div_lt_of_lt_mul (by rwa [Nat.pow_succ'] at hx)), UInt8.toNat_ofNat']
      omega

theorem ofLeBytes_lt (b : Bytes) : ofLeBytes b < 256 ^ b.length := by
  induction b with
  | nil => exact Nat.one_pos
  | cons x b ih =>
      change x.toNat + 256 * ofLeBytes b < 256 ^ (b.length + 1)
      have hbyte : x.toNat < 256 := x.toNat_lt
      rw [Nat.pow_succ']
      omega

theorem leBytes_ofLeBytes (b : Bytes) : leBytes b.length (ofLeBytes b) = b := by
  induction b with
  | nil => rfl
  | cons x b ih =>
      change leBytes (b.length + 1) (x.toNat + 256 * ofLeBytes b) = x :: b
      have hbyte : x.toNat < 256 := x.toNat_lt
      have hlow : UInt8.ofNat (x.toNat + 256 * ofLeBytes b) = x := by
        apply UInt8.toNat_inj.mp
        rw [UInt8.toNat_ofNat']
        omega
      have hhigh : (x.toNat + 256 * ofLeBytes b) / 256 = ofLeBytes b := by omega
      rw [leBytes_succ, hlow, hhigh, ih]

/-- `x.to_be_bytes()` of an integer of `n` bytes. -/
def beBytes (n x : Nat) : Bytes := (leBytes n x).reverse

/-- `from_be_bytes`, for any number of bytes. -/
def ofBeBytes (b : Bytes) : Nat := ofLeBytes b.reverse

@[simp] theorem beBytes_length (n x : Nat) : (beBytes n x).length = n := by
  simp [beBytes]

theorem ofBeBytes_beBytes (n : Nat) {x : Nat} (hx : x < 256 ^ n) :
    ofBeBytes (beBytes n x) = x := by
  rw [ofBeBytes, beBytes, List.reverse_reverse, ofLeBytes_leBytes n hx]

theorem ofBeBytes_lt (b : Bytes) : ofBeBytes b < 256 ^ b.length := by
  have hlt := ofLeBytes_lt b.reverse
  rwa [List.length_reverse] at hlt

theorem beBytes_ofBeBytes (b : Bytes) : beBytes b.length (ofBeBytes b) = b := by
  have hback := leBytes_ofLeBytes b.reverse
  rw [List.length_reverse] at hback
  rw [beBytes, ofBeBytes, hback, List.reverse_reverse]

/-- `s.as_bytes()`. -/
def utf8 (s : String) : Bytes := s.toUTF8.data.toList

/-- `String::from_utf8`, without the error. -/
def ofUtf8? (b : Bytes) : Option String := String.fromUTF8? ⟨b.toArray⟩

theorem ofUtf8?_eq_some {b : Bytes} {s : String} : ofUtf8? b = some s ↔ utf8 s = b := by
  unfold ofUtf8? String.fromUTF8?
  split
  · rw [Option.some.injEq]
    constructor
    · rintro rfl
      rfl
    · rintro rfl
      rfl
  · rename_i hinvalid
    constructor
    · intro hnone
      cases hnone
    · rintro rfl
      exact absurd s.isValidUTF8 hinvalid

theorem utf8_inj {s t : String} (h : utf8 s = utf8 t) : s = t := by
  have hs : ofUtf8? (utf8 t) = some s := ofUtf8?_eq_some.mpr h
  rw [ofUtf8?_eq_some.mpr rfl] at hs
  exact (Option.some.inj hs).symm

theorem toList_loop_eq (b : ByteArray) (i : Nat) (r : List UInt8) :
    ByteArray.toList.loop b i r = r.reverse ++ b.data.toList.drop i := by
  have hsize : b.data.toList.length = b.size := by simp
  induction hn : b.size - i generalizing i r with
  | zero =>
      rw [ByteArray.toList.loop, if_neg (by omega), List.drop_of_length_le (by omega),
        List.append_nil]
  | succ n ih =>
      have hlt : i < b.data.toList.length := by omega
      have hget : b.get! i = b.data.toList[i] := by
        cases b with
        | mk data => exact getElem!_pos data i (by simpa using hlt)
      rw [ByteArray.toList.loop, if_pos (by omega), ih (i + 1) _ (by omega),
        List.drop_eq_getElem_cons hlt, hget]
      simp

theorem toList_toUTF8 (s : String) : s.toUTF8.toList = utf8 s := by
  rw [ByteArray.toList, toList_loop_eq]
  rfl

/-- A byte is one of 256: a closed check of them all is a fact about every byte. -/
theorem forall_byte {P : UInt8 → Prop} (h : ∀ n < 256, P (UInt8.ofNat n)) (x : UInt8) : P x := by
  have hx := h x.toNat x.toNat_lt
  rwa [UInt8.ofNat_toNat] at hx

theorem utf8_append (s t : String) : utf8 (s ++ t) = utf8 s ++ utf8 t := by
  simp [utf8]

theorem utf8_ofList (l : List Char) :
    utf8 (String.ofList l) = l.flatMap String.utf8EncodeChar := by
  simp [utf8, String.toUTF8, List.utf8Encode]

/-- Two texts that end at the first separator are read apart. -/
theorem append_sep_inj {α : Type} {c : α} {xs ys us vs : List α} (hx : c ∉ xs) (hu : c ∉ us)
    (h : xs ++ c :: ys = us ++ c :: vs) : xs = us ∧ ys = vs := by
  induction xs generalizing us with
  | nil =>
      cases us with
      | nil => exact ⟨rfl, (List.cons.inj h).2⟩
      | cons u us => exact absurd (List.cons.inj h).1 (List.ne_of_not_mem_cons hu)
  | cons x xs ih =>
      cases us with
      | nil => exact absurd (List.cons.inj h).1.symm (List.ne_of_not_mem_cons hx)
      | cons u us =>
          obtain ⟨rfl, htail⟩ := List.cons.inj h
          obtain ⟨rfl, hrest⟩ := ih (List.not_mem_of_not_mem_cons hx)
            (List.not_mem_of_not_mem_cons hu) htail
          exact ⟨rfl, hrest⟩

/-- `b.slice(start..stop)`. -/
def slice (b : Bytes) (start stop : Nat) : Bytes := (b.drop start).take (stop - start)

theorem slice_length {b : Bytes} {start stop : Nat} (hstop : stop ≤ b.length) :
    (slice b start stop).length = stop - start := by
  simp only [slice, List.length_take, List.length_drop]
  omega

def hexDigits : List Char := "0123456789abcdef".toList

/-- `hex`: two digits for each byte, the high nibble first. -/
def hex (b : Bytes) : String :=
  String.ofList (b.flatMap fun x =>
    [hexDigits.getD (x.toNat / 16) '0', hexDigits.getD (x.toNat % 16) '0'])

theorem hexDigits_inj {a b : Nat} (ha : a < 16) (hb : b < 16)
    (h : hexDigits.getD a '0' = hexDigits.getD b '0') : a = b := by
  have hall : ∀ x < 16, ∀ y < 16, hexDigits.getD x '0' = hexDigits.getD y '0' → x = y := by decide
  exact hall a ha b hb h

theorem hex_inj {a b : Bytes} (h : hex a = hex b) : a = b := by
  have hlists := String.ofList_injective h
  induction a generalizing b with
  | nil =>
      cases b with
      | nil => rfl
      | cons y b => cases hlists
  | cons x a ih =>
      cases b with
      | nil => cases hlists
      | cons y b =>
          obtain ⟨hhigh, htail⟩ := List.cons.inj hlists
          obtain ⟨hlow, hrest⟩ := List.cons.inj htail
          have hx : x.toNat < 256 := x.toNat_lt
          have hy : y.toNat < 256 := y.toNat_lt
          have hdiv := hexDigits_inj (by omega) (by omega) hhigh
          have hmod := hexDigits_inj (by omega) (by omega) hlow
          obtain rfl : x = y := UInt8.toNat_inj.mp (by omega)
          rw [ih (congrArg String.ofList hrest) hrest]

/-- The format `x` of an integer. -/
def lowerHex (n : Nat) : String := String.ofList (Nat.toDigits 16 n)

theorem dot_not_mem_hex (b : Bytes) : '.' ∉ (hex b).toList := by
  intro hmem
  simp only [hex, String.toList_ofList, List.mem_flatMap] at hmem
  obtain ⟨x, _, hx⟩ := hmem
  have hdigit : ∀ n < 16, '.' ≠ hexDigits.getD n '0' := by decide
  have hbyte : x.toNat < 256 := x.toNat_lt
  simp only [List.mem_cons, List.not_mem_nil, or_false] at hx
  rcases hx with hx | hx
  · exact hdigit _ (by omega) hx
  · exact hdigit _ (by omega) hx

theorem dot_not_mem_toDigits (n : Nat) : '.' ∉ Nat.toDigits 16 n := by
  induction n using Nat.strongRecOn with
  | ind n ih =>
      rw [Nat.toDigits_eq_if (by omega)]
      split
      · simp
      · rename_i hge
        simp only [List.mem_append, List.mem_singleton, not_or]
        exact ⟨ih _ (by omega), (Nat.digitChar_ne '.' (by decide)).symm⟩

theorem digitChar_inj {a b : Nat} (ha : a < 16) (hb : b < 16)
    (h : Nat.digitChar a = Nat.digitChar b) : a = b := by
  have hall : ∀ x < 16, ∀ y < 16, Nat.digitChar x = Nat.digitChar y → x = y := by decide
  exact hall a ha b hb h

theorem toDigits_inj {a b : Nat} (h : Nat.toDigits 16 a = Nat.toDigits 16 b) : a = b := by
  induction a using Nat.strongRecOn generalizing b with
  | ind a ih =>
      have hlast (x : Nat) (c : Char) (hx : 16 ≤ x) : [c] ≠ Nat.toDigits 16 x := by
        intro heq
        have hlen := congrArg List.length heq
        rw [Nat.toDigits_of_base_le (by omega) hx] at hlen
        have := Nat.length_toDigits_pos (b := 16) (n := x / 16)
        simp only [List.length_append, List.length_singleton] at hlen
        omega
      by_cases ha : a < 16
      · rw [Nat.toDigits_of_lt_base ha] at h
        by_cases hb : b < 16
        · rw [Nat.toDigits_of_lt_base hb] at h
          exact digitChar_inj ha hb (List.cons.inj h).1
        · exact absurd h (hlast b _ (by omega))
      · by_cases hb : b < 16
        · rw [Nat.toDigits_of_lt_base hb] at h
          exact absurd h.symm (hlast a _ (by omega))
        · rw [Nat.toDigits_of_base_le (by omega) (by omega : 16 ≤ a),
            Nat.toDigits_of_base_le (by omega) (by omega : 16 ≤ b)] at h
          obtain ⟨hhigh, hlow⟩ := List.append_inj' h rfl
          have hdiv : a / 16 = b / 16 := ih _ (by omega) hhigh
          have hmod : a % 16 = b % 16 :=
            digitChar_inj (by omega) (by omega) (List.cons.inj hlow).1
          omega

end BlobCache
