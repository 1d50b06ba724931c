import BlobCache.Bytes
import BlobCache.Data.FinMap

/-!
Percent-encoding and `application/x-www-form-urlencoded` text, over bytes. The
encoder escapes every byte that is not an ASCII letter or digit, so that nothing
it writes is a separator of a path or of a query; other encoders escape a set of
bytes they are given. The form decoder also reads `+`
as a blank, and replaces what is not UTF-8; the replacement text is a parameter.
-/

namespace BlobCache.Percent

/-! ## Percent-encoding -/

def isAlphanumeric (x : UInt8) : Bool :=
  48 ≤ x && x ≤ 57 || 65 ≤ x && x ≤ 90 || 97 ≤ x && x ≤ 122

/-- The byte of a hexadecimal digit, in upper case. -/
def digitByte (n : Nat) : UInt8 := (utf8 "0123456789ABCDEF").getD n 0

/-- The value of a hexadecimal digit of either case. -/
def digitValue? (x : UInt8) : Option Nat :=
  if 48 ≤ x && x ≤ 57 then some (x.toNat - 48)
  else if 65 ≤ x && x ≤ 70 then some (x.toNat - 55)
  else if 97 ≤ x && x ≤ 102 then some (x.toNat - 87)
  else none

def encodeByte (x : UInt8) : Bytes :=
  if isAlphanumeric x then [x] else [37, digitByte (x.toNat / 16), digitByte (x.toNat % 16)]

def encode (b : Bytes) : Bytes := b.flatMap encodeByte

/-- The byte that `x` begins the escape of, if two digits follow it. -/
def escaped? (x : UInt8) : Bytes → Option UInt8
  | high :: low :: _ =>
      if x = 37 then do
        let h ← digitValue? high
        let l ← digitValue? low
        return UInt8.ofNat (16 * h + l)
      else none
  | _ => none

/-- Decoding, with `skip` digits of the last escape still to pass over. -/
def decodeFrom (skip : Nat) : Bytes → Bytes
  | [] => []
  | x :: rest =>
      match skip with
      | skip + 1 => decodeFrom skip rest
      | 0 =>
          match escaped? x rest with
          | some y => y :: decodeFrom 2 rest
          | none => x :: decodeFrom 0 rest

def decode (b : Bytes) : Bytes := decodeFrom 0 b

theorem digitValue?_digitByte {n : Nat} (hn : n < 16) : digitValue? (digitByte n) = some n := by
  have hall : ∀ m < 16, digitValue? (digitByte m) = some m := by decide
  exact hall n hn

theorem escaped?_of_ne {x : UInt8} (hx : x ≠ 37) (rest : Bytes) : escaped? x rest = none := by
  unfold escaped?
  split
  · rw [if_neg hx]
  · rfl

theorem escaped?_digits (x : UInt8) (rest : Bytes) :
    escaped? 37 (digitByte (x.toNat / 16) :: digitByte (x.toNat % 16) :: rest) = some x := by
  have hx : x.toNat < 256 := x.toNat_lt
  have hbyte : 16 * (x.toNat / 16) + x.toNat % 16 = x.toNat := by omega
  rw [escaped?, if_pos rfl, digitValue?_digitByte (by omega), digitValue?_digitByte (by omega)]
  change some (UInt8.ofNat (16 * (x.toNat / 16) + x.toNat % 16)) = some x
  rw [hbyte, UInt8.ofNat_toNat]

theorem decode_encodeByte_append (x : UInt8) (rest : Bytes) :
    decode (encodeByte x ++ rest) = x :: decode rest := by
  unfold encodeByte
  split
  · rename_i hplain
    have hx : x ≠ 37 := by
      rintro rfl
      cases hplain
    change decodeFrom 0 (x :: rest) = _
    rw [decodeFrom, escaped?_of_ne hx]
    rfl
  · change decodeFrom 0 (37 :: digitByte (x.toNat / 16) :: digitByte (x.toNat % 16) :: rest) = _
    rw [decodeFrom, escaped?_digits]
    rfl

theorem decode_encode (b : Bytes) : decode (encode b) = b := by
  induction b with
  | nil => rfl
  | cons x b ih =>
      change decode (encodeByte x ++ encode b) = x :: b
      rw [decode_encodeByte_append, ih]

/-- What the encoder writes: letters, digits and `%`. -/
theorem mem_encode {b : Bytes} {x : UInt8} (hx : x ∈ encode b) :
    x = 37 ∨ isAlphanumeric x = true := by
  obtain ⟨y, -, hmem⟩ := List.mem_flatMap.mp hx
  have hdigit : ∀ n < 16, isAlphanumeric (digitByte n) = true := by decide
  have hy : y.toNat < 256 := y.toNat_lt
  unfold encodeByte at hmem
  split at hmem
  · rename_i hplain
    rw [List.mem_singleton.mp hmem]
    exact .inr hplain
  · simp only [List.mem_cons, List.not_mem_nil, or_false] at hmem
    rcases hmem with rfl | rfl | rfl
    · exact .inl rfl
    · exact .inr (hdigit _ (by omega))
    · exact .inr (hdigit _ (by omega))

theorem encode_of_alphanumeric {b : Bytes} (hb : ∀ x ∈ b, isAlphanumeric x = true) :
    encode b = b := by
  induction b with
  | nil => rfl
  | cons x b ih =>
      change encodeByte x ++ encode b = x :: b
      rw [encodeByte, if_pos (hb x List.mem_cons_self),
        ih fun y hy => hb y (List.mem_cons_of_mem x hy)]
      rfl

/-! ### What decoding leaves alone -/

theorem escaped?_eq_some {x y : UInt8} {rest : Bytes} (h : escaped? x rest = some y) :
    ∃ high low tail, x = 37 ∧ rest = high :: low :: tail ∧
      (digitValue? high).isSome = true ∧ (digitValue? low).isSome = true := by
  unfold escaped? at h
  split at h
  · rename_i high low tail
    split at h
    · rename_i hx
      simp only [Option.bind_eq_bind, Option.bind_eq_some_iff] at h
      obtain ⟨n, hhigh, m, hlow, -⟩ := h
      exact ⟨high, low, tail, hx, rfl, by rw [hhigh]; rfl, by rw [hlow]; rfl⟩
    · cases h
  · cases h

theorem escaped?_isSome {high low : UInt8} (hhigh : (digitValue? high).isSome = true)
    (hlow : (digitValue? low).isSome = true) (rest : Bytes) :
    (escaped? 37 (high :: low :: rest)).isSome = true := by
  obtain ⟨n, hn⟩ := Option.isSome_iff_exists.mp hhigh
  obtain ⟨m, hm⟩ := Option.isSome_iff_exists.mp hlow
  rw [escaped?, if_pos rfl, hn, hm]
  rfl

theorem decode_of_escaped {x y : UInt8} {rest : Bytes} (h : escaped? x rest = some y) :
    decode (x :: rest) = y :: decode (rest.drop 2) := by
  obtain ⟨high, low, tail, -, rfl, -, -⟩ := escaped?_eq_some h
  change decodeFrom 0 (x :: high :: low :: tail) = _
  rw [decodeFrom, h]
  rfl

theorem decode_of_plain {x : UInt8} {rest : Bytes} (h : escaped? x rest = none) :
    decode (x :: rest) = x :: decode rest := by
  change decodeFrom 0 (x :: rest) = _
  rw [decodeFrom, h]
  rfl

theorem decode_length_le (b : Bytes) : (decode b).length ≤ b.length := by
  induction hn : b.length using Nat.strong_induction_on generalizing b with
  | _ n ih =>
      cases b with
      | nil => exact Nat.zero_le n
      | cons x rest =>
          rw [List.length_cons] at hn
          cases hescape : escaped? x rest with
          | none =>
              have hrest := ih rest.length (by omega) rest rfl
              rw [decode_of_plain hescape, List.length_cons]
              omega
          | some y =>
              have hrest := ih (rest.drop 2).length (by simp; omega) (rest.drop 2) rfl
              rw [List.length_drop] at hrest
              rw [decode_of_escaped hescape, List.length_cons]
              omega

/-- An escape is three bytes for one: a text that keeps its length has none. -/
theorem decode_eq_self {b : Bytes} (h : (decode b).length = b.length) : decode b = b := by
  induction b with
  | nil => rfl
  | cons x rest ih =>
      cases hescape : escaped? x rest with
      | none =>
          rw [decode_of_plain hescape] at h ⊢
          rw [ih (Nat.succ.inj h)]
      | some y =>
          obtain ⟨high, low, tail, -, rfl, -, -⟩ := escaped?_eq_some hescape
          have hle := decode_length_le tail
          rw [decode_of_escaped hescape] at h
          simp only [List.length_cons, List.drop_succ_cons, List.drop_zero] at h
          omega

/-- Whether two digits follow some `%`. -/
def hasEscape : Bytes → Bool
  | [] => false
  | x :: rest => (escaped? x rest).isSome || hasEscape rest

theorem hasEscape_eq_false_iff (b : Bytes) : hasEscape b = false ↔ decode b = b := by
  induction b with
  | nil => exact ⟨fun _ => rfl, fun _ => rfl⟩
  | cons x rest ih =>
      rw [hasEscape, Bool.or_eq_false_iff, ih]
      cases hescape : escaped? x rest with
      | none =>
          rw [decode_of_plain hescape]
          simp
      | some y =>
          obtain ⟨high, low, tail, -, rfl, -, -⟩ := escaped?_eq_some hescape
          have hle := decode_length_le tail
          have hne : decode (x :: high :: low :: tail) ≠ x :: high :: low :: tail := by
            intro heq
            have hlen := congrArg List.length heq
            rw [decode_of_escaped hescape] at hlen
            simp only [List.length_cons, List.drop_succ_cons, List.drop_zero] at hlen
            omega
          simp [hne]

/-- No escape reaches over a byte that is neither `%` nor a digit. -/
theorem decode_append_cons {c : UInt8} (hc : c ≠ 37) (hdigit : digitValue? c = none)
    (a b : Bytes) : decode (a ++ c :: b) = decode a ++ c :: decode b := by
  induction hn : a.length using Nat.strong_induction_on generalizing a with
  | _ n ih =>
      cases a with
      | nil => exact decode_of_plain (escaped?_of_ne hc b)
      | cons x rest =>
          rw [List.length_cons] at hn
          rw [List.cons_append]
          cases hescape : escaped? x rest with
          | some y =>
              obtain ⟨high, low, tail, -, rfl, -, -⟩ := escaped?_eq_some hescape
              have htail := ih tail.length (by simp at hn; omega) tail rfl
              have happ : escaped? x (high :: low :: tail ++ c :: b) = some y := hescape
              rw [decode_of_escaped hescape, decode_of_escaped happ]
              simpa using htail
          | none =>
              have hrest := ih rest.length (by omega) rest rfl
              have happ : escaped? x (rest ++ c :: b) = none := by
                cases hlong : escaped? x (rest ++ c :: b) with
                | none => rfl
                | some y =>
                    obtain ⟨high, low, tail, rfl, heq, hhigh, hlow⟩ := escaped?_eq_some hlong
                    -- The two digits would have to be bytes of `rest`, or `c` one of them.
                    match rest, heq with
                    | [], heq =>
                        obtain ⟨rfl, -⟩ := List.cons.inj heq
                        rw [hdigit] at hhigh
                        cases hhigh
                    | [_], heq =>
                        obtain ⟨rfl, -⟩ := List.cons.inj (List.cons.inj heq).2
                        rw [hdigit] at hlow
                        cases hlow
                    | high' :: low' :: tail', heq =>
                        exact hlong.symm.trans hescape
              rw [decode_of_plain hescape, decode_of_plain happ, hrest]
              rfl

/-! ### Encoding a set of bytes -/

/-- The bytes an encoder escapes. One that leaves `%` and the digits alone keeps the
escapes its text already has. -/
structure EncodeSet where
  mem : UInt8 → Bool
  percent : mem 37 = false
  digit : ∀ x, (digitValue? x).isSome = true → mem x = false

def EncodeSet.encodeByte (set : EncodeSet) (x : UInt8) : Bytes :=
  if set.mem x then [37, digitByte (x.toNat / 16), digitByte (x.toNat % 16)] else [x]

def EncodeSet.encode (set : EncodeSet) (b : Bytes) : Bytes := b.flatMap set.encodeByte

@[simp] theorem EncodeSet.encode_nil (set : EncodeSet) : set.encode [] = [] := rfl

theorem EncodeSet.encode_cons_of_mem {set : EncodeSet} {x : UInt8} (h : set.mem x = true)
    (b : Bytes) : set.encode (x :: b) =
      37 :: digitByte (x.toNat / 16) :: digitByte (x.toNat % 16) :: set.encode b := by
  simp [EncodeSet.encode, EncodeSet.encodeByte, h]

theorem EncodeSet.encode_cons_of_not_mem {set : EncodeSet} {x : UInt8} (h : set.mem x = false)
    (b : Bytes) : set.encode (x :: b) = x :: set.encode b := by
  simp [EncodeSet.encode, EncodeSet.encodeByte, h]

/-- A digit in front of the encoded text is a digit in front of the text. -/
theorem EncodeSet.encode_eq_digit_cons {set : EncodeSet} {b tail : Bytes} {x : UInt8}
    (hx : (digitValue? x).isSome = true) (h : set.encode b = x :: tail) :
    ∃ rest, b = x :: rest ∧ tail = set.encode rest := by
  cases b with
  | nil => cases h
  | cons y rest =>
      cases hy : set.mem y with
      | true =>
          rw [encode_cons_of_mem hy] at h
          obtain ⟨rfl, -⟩ := List.cons.inj h
          cases hx
      | false =>
          rw [encode_cons_of_not_mem hy] at h
          obtain ⟨rfl, htail⟩ := List.cons.inj h
          exact ⟨rest, rfl, htail.symm⟩

theorem EncodeSet.escaped?_encode (set : EncodeSet) (x : UInt8) (b : Bytes) :
    escaped? x (set.encode b) = escaped? x b := by
  cases hescape : escaped? x b with
  | some y =>
      obtain ⟨high, low, tail, -, rfl, hhigh, hlow⟩ := escaped?_eq_some hescape
      rw [encode_cons_of_not_mem (set.digit high hhigh),
        encode_cons_of_not_mem (set.digit low hlow)]
      exact hescape
  | none =>
      cases hencoded : escaped? x (set.encode b) with
      | none => rfl
      | some y =>
          obtain ⟨high, low, tail, rfl, heq, hhigh, hlow⟩ := escaped?_eq_some hencoded
          obtain ⟨rest, rfl, hrest⟩ := encode_eq_digit_cons hhigh heq
          obtain ⟨rest, rfl, -⟩ := encode_eq_digit_cons hlow hrest.symm
          have hsome := escaped?_isSome hhigh hlow rest
          rw [hescape] at hsome
          cases hsome

theorem EncodeSet.decode_encode (set : EncodeSet) (b : Bytes) :
    decode (set.encode b) = decode b := by
  induction hn : b.length using Nat.strong_induction_on generalizing b with
  | _ n ih =>
      cases b with
      | nil => rfl
      | cons x rest =>
          rw [List.length_cons] at hn
          have hrest := ih rest.length (by omega) rest rfl
          cases hx : set.mem x with
          | true =>
              have hne : x ≠ 37 := by
                rintro rfl
                rw [set.percent] at hx
                cases hx
              rw [encode_cons_of_mem hx, decode_of_escaped (escaped?_digits x _),
                decode_of_plain (escaped?_of_ne hne rest)]
              exact congrArg (x :: ·) hrest
          | false =>
              rw [encode_cons_of_not_mem hx]
              cases hescape : escaped? x rest with
              | none =>
                  rw [decode_of_plain hescape,
                    decode_of_plain ((set.escaped?_encode x rest).trans hescape), hrest]
              | some y =>
                  rw [decode_of_escaped hescape,
                    decode_of_escaped ((set.escaped?_encode x rest).trans hescape)]
                  obtain ⟨high, low, tail, -, rfl, hhigh, hlow⟩ := escaped?_eq_some hescape
                  rw [encode_cons_of_not_mem (set.digit high hhigh),
                    encode_cons_of_not_mem (set.digit low hlow)]
                  simp only [List.length_cons] at hn
                  exact congrArg (y :: ·) (ih tail.length (by omega) tail rfl)

/-! ## Forms -/

def plusToBlank (b : Bytes) : Bytes := b.map fun x => if x = 43 then 32 else x

/-- `decode_utf8_lossy`: `lossy` is what it makes of bytes that are not UTF-8. -/
def text (lossy : Bytes → String) (b : Bytes) : String := (ofUtf8? b).getD (lossy b)

def formText (lossy : Bytes → String) (b : Bytes) : String :=
  text lossy (decode (plusToBlank b))

/-- A field: the name ends at the first `=`, and a field without one has no value. -/
def formField (lossy : Bytes → String) (field : Bytes) : String × String :=
  (formText lossy (field.takeWhile (· ≠ 61)), formText lossy ((field.dropWhile (· ≠ 61)).drop 1))

/-- The fields of a form, between `&`s. -/
def formParse (lossy : Bytes → String) (b : Bytes) : List (String × String) :=
  ((b.splitOn 38).filter (· ≠ [])).map (formField lossy)

theorem text_utf8 (lossy : Bytes → String) (s : String) : text lossy (utf8 s) = s := by
  rw [text, ofUtf8?_eq_some.mpr rfl, Option.getD_some]

/-- The bytes `b` stand for the text `s` between the separators of a form. -/
structure Component (s : String) (b : Bytes) : Prop where
  amp : 38 ∉ b
  equals : 61 ∉ b
  plus : 43 ∉ b
  decoded : decode b = utf8 s

theorem Component.encode (s : String) : Component s (encode (utf8 s)) := by
  have hnot {c : UInt8} (hpercent : c ≠ 37) (hc : isAlphanumeric c = false) :
      c ∉ Percent.encode (utf8 s) := by
    intro hmem
    rcases mem_encode hmem with heq | hplain
    · exact hpercent heq
    · rw [hplain] at hc
      cases hc
  exact ⟨hnot (by decide) (by decide), hnot (by decide) (by decide), hnot (by decide) (by decide),
    decode_encode (utf8 s)⟩

theorem Component.of_alphanumeric {s : String}
    (hs : ∀ x ∈ utf8 s, isAlphanumeric x = true) : Component s (utf8 s) := by
  have hcomponent := Component.encode s
  rwa [encode_of_alphanumeric hs] at hcomponent

theorem formText_component {s : String} {b : Bytes} (h : Component s b)
    (lossy : Bytes → String) : formText lossy b = s := by
  have hplain : plusToBlank b = b := by
    unfold plusToBlank
    nth_rewrite 2 [← List.map_id b]
    apply List.map_congr_left
    intro x hx
    apply if_neg
    rintro rfl
    exact h.plus hx
  rw [formText, hplain, h.decoded, text_utf8]

theorem formField_component {name value : String} {n v : Bytes} (hn : Component name n)
    (hv : Component value v) (lossy : Bytes → String) :
    formField lossy (n ++ 61 :: v) = (name, value) := by
  have hne : ∀ x ∈ n, decide (x ≠ 61) = true := by
    intro x hx
    rw [decide_eq_true_iff]
    rintro rfl
    exact hn.equals hx
  unfold formField
  rw [List.takeWhile_append_of_pos hne, List.dropWhile_append_of_pos hne]
  simp [formText_component hn, formText_component hv]

theorem formParse_cons {name value : String} {n v : Bytes} (hn : Component name n)
    (hv : Component value v) (lossy : Bytes → String) (rest : Bytes) :
    formParse lossy (n ++ 61 :: (v ++ 38 :: rest)) = (name, value) :: formParse lossy rest := by
  have hamp : 38 ∉ n ++ 61 :: v := by
    simp [hn.amp, hv.amp]
  have hshape : n ++ 61 :: (v ++ 38 :: rest) = (n ++ 61 :: v) ++ 38 :: rest := by simp
  rw [hshape, formParse, List.splitOn_append_cons_self_of_not_mem hamp,
    List.filter_cons_of_pos (by simp), List.map_cons, formField_component hn hv]
  rfl

theorem formParse_last {name value : String} {n v : Bytes} (hn : Component name n)
    (hv : Component value v) (lossy : Bytes → String) :
    formParse lossy (n ++ 61 :: v) = [(name, value)] := by
  have hamp : 38 ∉ n ++ 61 :: v := by
    simp [hn.amp, hv.amp]
  have hsplit : [38].intercalate [n ++ 61 :: v] = n ++ 61 :: v := by simp
  rw [← hsplit, formParse, List.splitOn_intercalate 38 (by simpa using hamp) (by simp),
    List.filter_cons_of_pos (by simp), List.filter_nil, List.map_singleton,
    formField_component hn hv]

/-! ## Decimal numbers -/

/-- `parse` of an unsigned type with values below `bound`. -/
def parseUnsigned (bound : Nat) (s : String) : Option Nat :=
  let digits := match s.toList with
    | '+' :: rest => rest
    | all => all
  if digits ≠ [] ∧ digits.all Char.isDigit then
    let n := Nat.ofDigitChars 10 digits 0
    if n < bound then some n else none
  else none

theorem toString_toList (n : Nat) : (toString n).toList = Nat.toDigits 10 n := by
  rw [Nat.toString_eq_repr, Nat.repr_eq_ofList_toDigits, String.toList_ofList]

theorem parseUnsigned_toString {bound n : Nat} (hn : n < bound) :
    parseUnsigned bound (toString n) = some n := by
  have hdigits : ∀ c ∈ Nat.toDigits 10 n, c.isDigit = true :=
    fun c hc => Nat.isDigit_of_mem_toDigits (by omega) (by omega) hc
  have hnil : Nat.toDigits 10 n ≠ [] := by
    intro hempty
    have hpos := Nat.length_toDigits_pos (b := 10) (n := n)
    rw [hempty] at hpos
    cases hpos
  have hvalue : Nat.ofDigitChars 10 (Nat.toDigits 10 n) 0 = n := Nat.ofDigitChars_ten_toDigits
  unfold parseUnsigned
  rw [toString_toList]
  generalize Nat.toDigits 10 n = digits at hdigits hnil hvalue
  cases digits with
  | nil => exact absurd rfl hnil
  | cons c rest =>
      have hsign : c ≠ '+' := by
        rintro rfl
        exact absurd (hdigits '+' List.mem_cons_self) (by decide)
      have hall : (c :: rest).all Char.isDigit = true := List.all_eq_true.mpr hdigits
      simp [hsign, hvalue, hn, hall]

theorem alphanumeric_toString (n : Nat) : ∀ x ∈ utf8 (toString n), isAlphanumeric x = true := by
  intro x hx
  rw [Nat.toString_eq_repr, Nat.repr_eq_ofList_toDigits, utf8_ofList] at hx
  obtain ⟨c, hc, hx⟩ := List.mem_flatMap.mp hx
  have hdigit : c.isDigit = true := Nat.isDigit_of_mem_toDigits (by omega) (by omega) hc
  have hrange : 48 ≤ c.toNat ∧ c.toNat ≤ 57 := by
    simpa [Char.isDigit, UInt32.le_iff_toNat_le] using hdigit
  have hall : ∀ k < 10, ∀ x ∈ String.utf8EncodeChar (Char.ofNat (48 + k)),
      isAlphanumeric x = true := by decide +kernel
  have hchar : Char.ofNat (48 + (c.toNat - 48)) = c := by
    rw [Nat.add_sub_cancel' hrange.1, Char.ofNat_toNat]
  exact hall (c.toNat - 48) (by omega) x (by rwa [hchar])

end BlobCache.Percent
