import BlobCache.Bloom

/-!
Bloom filters on the wire. The header of a received filter is any `u64`; it fixes
the number of words, the modulus of the positions and with it every index into the
words. What `from_bytes` accepts is exactly what `to_bytes` can have written.
-/

namespace BlobCache.Bloom

/-- The number of words for a header. -/
def wordCount (mBits : Nat) : Nat := (mBits + 63) / 64

/-- The places of the word vector that `insert` and `contains` look at. -/
def wordIndices (b : Bloom) (d : Digest) : List Nat := (positions b.mBits d).map (· / 64)

theorem wordIndices_lt (b : Bloom) {d : Digest} {i : Nat} (h : i ∈ b.wordIndices d) :
    i < b.bits.length := by
  obtain ⟨pos, hpos, rfl⟩ := List.mem_map.mp h
  exact b.word_lt (lt_of_mem_positions b.le_mBits hpos)

theorem encode_decodeWords (n : Nat) {payload : Bytes} (hlen : payload.length = n * 8) :
    ((decodeWords n payload).flatMap fun w => leBytes 8 w.toNat) = payload := by
  induction n generalizing payload with
  | zero =>
      have hnil : payload = [] := List.eq_nil_of_length_eq_zero (by omega)
      rw [hnil]
      rfl
  | succ n ih =>
      have htake : (payload.take 8).length = 8 := by
        rw [List.length_take]
        omega
      have hrest : (payload.drop 8).length = n * 8 := by
        rw [List.length_drop]
        omega
      have hword : ofLeBytes (payload.take 8) < 2 ^ 64 := by
        have hlt := ofLeBytes_lt (payload.take 8)
        rw [htake] at hlt
        omega
      have hback : leBytes 8 (ofLeBytes (payload.take 8)) = payload.take 8 := by
        have hround := leBytes_ofLeBytes (payload.take 8)
        rwa [htake] at hround
      rw [decodeWords, List.flatMap_cons, ih hrest, BitVec.toNat_ofNat, Nat.mod_eq_of_lt hword,
        hback, List.take_append_drop]

/-- What makes a byte string a filter. -/
structure WellFormed (b : Bytes) : Prop where
  header : 8 ≤ b.length
  bits : 64 ≤ ofLeBytes (b.take 8)
  length : b.length = 8 + 8 * wordCount (ofLeBytes (b.take 8))

theorem fromBytes_of_wellFormed {b : Bytes} (h : WellFormed b) :
    ∃ f, fromBytes b = some f ∧ f.mBits = ofLeBytes (b.take 8) ∧
      f.bits = decodeWords (wordCount (ofLeBytes (b.take 8))) (b.drop 8) := by
  obtain ⟨hheader, hbits, hlength⟩ := h
  have hpayload : (b.drop 8).length = (ofLeBytes (b.take 8) + 63) / 64 * 8 := by
    rw [List.length_drop, hlength, wordCount]
    omega
  unfold fromBytes
  rw [if_neg (by omega), dif_neg (by omega), if_neg (by rw [hpayload]; exact not_not.mpr rfl)]
  exact ⟨_, rfl, rfl, rfl⟩

theorem wellFormed_of_fromBytes {b : Bytes} {f : Bloom} (h : fromBytes b = some f) :
    WellFormed b := by
  unfold fromBytes at h
  split at h
  · cases h
  · rename_i hheader
    dsimp only at h
    split at h
    · cases h
    · rename_i hbits
      split at h
      · cases h
      · rename_i hlength
        rw [List.length_drop] at hlength
        refine ⟨by omega, by omega, ?_⟩
        rw [wordCount]
        omega

/-- What was read is written back as it came. -/
theorem toBytes_of_fromBytes {b : Bytes} {f : Bloom} (h : fromBytes b = some f) :
    f.toBytes = b := by
  have hwf := wellFormed_of_fromBytes h
  obtain ⟨g, hg, hm, hw⟩ := fromBytes_of_wellFormed hwf
  rw [h] at hg
  cases hg
  have htake : (b.take 8).length = 8 := by
    rw [List.length_take]
    exact Nat.min_eq_left hwf.header
  have hhead : leBytes 8 (ofLeBytes (b.take 8)) = b.take 8 := by
    have hround := leBytes_ofLeBytes (b.take 8)
    rwa [htake] at hround
  have hpayload : (b.drop 8).length = wordCount (ofLeBytes (b.take 8)) * 8 := by
    rw [List.length_drop, hwf.length]
    omega
  rw [toBytes, hm, hw, encode_decodeWords _ hpayload, hhead, List.take_append_drop]

theorem new_insertAll_mBits (m : UInt64) (ds : List Digest) :
    ((new m.toNat).insertAll ds).mBits < 2 ^ 64 := by
  rw [insertAll_mBits]
  have hm : m.toNat < 2 ^ 64 := m.toNat_lt
  change max m.toNat 64 < 2 ^ 64
  omega

/-- A byte string is a filter exactly when its header is large enough and its length is
the one that the header calls for; no header makes the length wrap around. Such a filter
is written back as it came and indexes only words that it has. A filter that was built
from digests survives the wire, tests positive for each of them on both sides, and a
positive answer stays positive. -/
theorem filter_on_wire :
    (∀ b : Bytes,
      ((fromBytes b).isSome = true ↔ 8 ≤ b.length ∧ 64 ≤ ofLeBytes (b.take 8) ∧
        b.length = 8 + 8 * wordCount (ofLeBytes (b.take 8))) ∧
      8 + 8 * wordCount (ofLeBytes (b.take 8)) < 2 ^ 64 ∧
      ∀ f, fromBytes b = some f →
        f.toBytes = b ∧ ∀ d, ∀ i ∈ f.wordIndices d, i < f.bits.length) ∧
    ∀ (m : UInt64) (ds : List Digest),
      let f := (new m.toNat).insertAll ds
      fromBytes f.toBytes = some f ∧
        (∀ d ∈ ds, f.contains d = true ∧
          (fromBytes f.toBytes).any (fun g => g.contains d) = true) ∧
        ∀ d more, f.contains d = true → (f.insertAll more).contains d = true := by
  refine ⟨?_, ?_⟩
  · intro b
    refine ⟨?_, ?_, ?_⟩
    · constructor
      · intro hsome
        obtain ⟨f, hf⟩ := Option.isSome_iff_exists.mp hsome
        have hwf := wellFormed_of_fromBytes hf
        exact ⟨hwf.header, hwf.bits, hwf.length⟩
      · rintro ⟨hheader, hbits, hlength⟩
        obtain ⟨f, hf, -⟩ := fromBytes_of_wellFormed ⟨hheader, hbits, hlength⟩
        rw [hf]
        rfl
    · have hshort : (b.take 8).length ≤ 8 := List.length_take_le 8 b
      have hlt : ofLeBytes (b.take 8) < 256 ^ 8 :=
        (ofLeBytes_lt (b.take 8)).trans_le (Nat.pow_le_pow_right (by decide) hshort)
      rw [wordCount]
      omega
    · intro f hf
      exact ⟨toBytes_of_fromBytes hf, fun d i hi => f.wordIndices_lt hi⟩
  · intro m ds
    have hround := fromBytes_toBytes _ (new_insertAll_mBits m ds)
    refine ⟨hround, ?_, ?_⟩
    · intro d hd
      rw [hround]
      exact ⟨insertAll_contains hd, insertAll_contains hd⟩
    · intro d more hpos
      exact insertAll_contains_of_contains hpos

end BlobCache.Bloom
