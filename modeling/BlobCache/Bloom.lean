import Mathlib.Data.BitVec
import BlobCache.Bytes

/-!
The Bloom filter that nodes exchange. Words are 64-bit vectors, as in the
source; the number of words and the lower bound on the number of bits are
fields of the structure, because every constructor establishes them.
-/

namespace BlobCache

def bloomK : Nat := 4

structure Bloom where
  bits : List (BitVec 64)
  mBits : Nat
  length_bits : bits.length = (mBits + 63) / 64
  le_mBits : 64 ≤ mBits
  deriving DecidableEq

/-- `bit_pos`: double hashing on the first sixteen bytes of the digest, with
wrapping arithmetic. -/
def bitPos (d : Digest) (i m : Nat) : Nat :=
  let h1 := ofLeBytes (d.toList.take 8)
  let h2 := ofLeBytes ((d.toList.drop 8).take 8)
  ((h1 + i * h2 % 2 ^ 64) % 2 ^ 64) % m

namespace Bloom

/-- `Bloom::new`. -/
def new (mBits : Nat) : Bloom where
  bits := List.replicate ((max mBits 64 + 63) / 64) 0
  mBits := max mBits 64
  length_bits := List.length_replicate
  le_mBits := Nat.le_max_right _ _

/-- `self.bits[pos / 64] |= 1u64 << (pos % 64)`. -/
def setBit (b : Bloom) (pos : Nat) : Bloom where
  bits := b.bits.set (pos / 64) (b.bits.getD (pos / 64) 0 ||| BitVec.twoPow 64 (pos % 64))
  mBits := b.mBits
  length_bits := by rw [List.length_set]; exact b.length_bits
  le_mBits := b.le_mBits

/-- `self.bits[pos / 64] & (1u64 << (pos % 64)) != 0`. -/
def has (b : Bloom) (pos : Nat) : Bool := (b.bits.getD (pos / 64) 0).getLsbD (pos % 64)

def positions (mBits : Nat) (d : Digest) : List Nat :=
  (List.range bloomK).map fun i => bitPos d i mBits

def insert (b : Bloom) (d : Digest) : Bloom := (positions b.mBits d).foldl setBit b

def contains (b : Bloom) (d : Digest) : Bool := (positions b.mBits d).all b.has

def toBytes (b : Bloom) : Bytes :=
  leBytes 8 b.mBits ++ b.bits.flatMap fun w => leBytes 8 w.toNat

/-- `chunks_exact(8)` followed by `from_le_bytes`. -/
def decodeWords : Nat → Bytes → List (BitVec 64)
  | 0, _ => []
  | n + 1, payload => BitVec.ofNat 64 (ofLeBytes (payload.take 8)) :: decodeWords n (payload.drop 8)

theorem decodeWords_length (n : Nat) (payload : Bytes) : (decodeWords n payload).length = n := by
  induction n generalizing payload with
  | zero => rfl
  | succ n ih => simp [decodeWords, ih]

def fromBytes (b : Bytes) : Option Bloom :=
  if b.length < 8 then none
  else
    let mBits := ofLeBytes (b.take 8)
    let words := (mBits + 63) / 64
    if hm : mBits < 64 then none
    else if (b.drop 8).length ≠ words * 8 then none
    else some ⟨decodeWords words (b.drop 8), mBits, decodeWords_length _ _, by omega⟩

@[simp] theorem new_has (mBits pos : Nat) : (new mBits).has pos = false := by
  simp only [has, new, List.getD_eq_getElem?_getD, List.getElem?_replicate]
  split <;> simp

/-- The word that holds bit `pos` exists. -/
theorem word_lt (b : Bloom) {pos : Nat} (hpos : pos < b.mBits) : pos / 64 < b.bits.length := by
  rw [b.length_bits]
  omega

theorem setBit_has (b : Bloom) {pos : Nat} (hpos : pos < b.mBits) (q : Nat) :
    (b.setBit pos).has q = (b.has q || decide (q = pos)) := by
  have hlt := b.word_lt hpos
  simp only [has, setBit, List.getD_eq_getElem?_getD]
  by_cases hword : q / 64 = pos / 64
  · rw [hword, List.getElem?_set_self hlt]
    simp only [Option.getD_some, BitVec.getLsbD_or, BitVec.getLsbD_twoPow]
    have hiff : (pos % 64 = q % 64) ↔ q = pos := by omega
    have hmod : pos % 64 < 64 := Nat.mod_lt _ (by decide)
    simp [hiff, hmod]
  · have hne : q ≠ pos := by rintro rfl; exact hword rfl
    rw [List.getElem?_set_ne (Ne.symm hword)]
    simp [hne]

theorem bitPos_lt (d : Digest) (i : Nat) {m : Nat} (hm : 0 < m) : bitPos d i m < m :=
  Nat.mod_lt _ hm

theorem lt_of_mem_positions {mBits pos : Nat} {d : Digest} (hm : 64 ≤ mBits)
    (h : pos ∈ positions mBits d) : pos < mBits := by
  simp only [positions, List.mem_map] at h
  obtain ⟨i, _, rfl⟩ := h
  exact bitPos_lt d i (by omega)

private theorem foldl_setBit (ps : List Nat) (b : Bloom) (hps : ∀ p ∈ ps, p < b.mBits) :
    (ps.foldl setBit b).mBits = b.mBits ∧
      ∀ q, (ps.foldl setBit b).has q = (b.has q || decide (q ∈ ps)) := by
  induction ps generalizing b with
  | nil => simp
  | cons p ps ih =>
      have hp : p < b.mBits := hps p (by simp)
      obtain ⟨hm, hh⟩ := ih (b.setBit p) (fun x hx => hps x (by simp [hx]))
      refine ⟨hm, ?_⟩
      intro q
      rw [List.foldl_cons, hh q, setBit_has b hp]
      simp [Bool.or_assoc]

@[simp] theorem insert_mBits (b : Bloom) (d : Digest) : (b.insert d).mBits = b.mBits :=
  (foldl_setBit _ b fun _ h => lt_of_mem_positions b.le_mBits h).1

/-- The bits of a filter after an insertion. -/
theorem insert_has (b : Bloom) (d : Digest) (q : Nat) :
    (b.insert d).has q = (b.has q || decide (q ∈ positions b.mBits d)) :=
  (foldl_setBit _ b fun _ h => lt_of_mem_positions b.le_mBits h).2 q

theorem contains_iff {b : Bloom} {d : Digest} :
    b.contains d = true ↔ ∀ p ∈ positions b.mBits d, b.has p = true := by
  simp [contains]

theorem insert_contains_self (b : Bloom) (d : Digest) : (b.insert d).contains d = true := by
  rw [contains_iff]
  intro p hp
  rw [insert_mBits] at hp
  simp [insert_has, hp]

theorem insert_contains_of_contains {b : Bloom} {d e : Digest} (h : b.contains e = true) :
    (b.insert d).contains e = true := by
  rw [contains_iff] at h ⊢
  intro p hp
  rw [insert_mBits] at hp
  simp [insert_has, h p hp]

/-- Insert the digests of a list, in order. -/
def insertAll (b : Bloom) (ds : List Digest) : Bloom := ds.foldl insert b

@[simp] theorem insertAll_mBits (b : Bloom) (ds : List Digest) :
    (b.insertAll ds).mBits = b.mBits := by
  induction ds generalizing b with
  | nil => rfl
  | cons d ds ih => exact (ih (b.insert d)).trans (insert_mBits b d)

theorem insertAll_has (b : Bloom) (ds : List Digest) (q : Nat) :
    (b.insertAll ds).has q = (b.has q || decide (∃ d ∈ ds, q ∈ positions b.mBits d)) := by
  induction ds generalizing b with
  | nil => simp [insertAll]
  | cons d ds ih =>
      have hstep : b.insertAll (d :: ds) = (b.insert d).insertAll ds := rfl
      rw [hstep, ih, insert_has, insert_mBits]
      simp [Bool.or_assoc]

/-- No false negatives. -/
theorem insertAll_contains {b : Bloom} {ds : List Digest} {d : Digest} (h : d ∈ ds) :
    (b.insertAll ds).contains d = true := by
  rw [contains_iff]
  intro p hp
  rw [insertAll_mBits] at hp
  rw [insertAll_has]
  simp only [Bool.or_eq_true, decide_eq_true_eq]
  exact .inr ⟨d, h, hp⟩

theorem insertAll_contains_of_contains {b : Bloom} {ds : List Digest} {d : Digest}
    (h : b.contains d = true) : (b.insertAll ds).contains d = true := by
  rw [contains_iff] at h ⊢
  intro p hp
  rw [insertAll_mBits] at hp
  simp [insertAll_has, h p hp]

theorem ext_has {b c : Bloom} (hm : b.mBits = c.mBits) (h : ∀ q, b.has q = c.has q) :
    b = c := by
  have hlen : b.bits.length = c.bits.length := by rw [b.length_bits, c.length_bits, hm]
  have hbits : b.bits = c.bits := by
    apply List.ext_getElem hlen
    intro i hi hi'
    apply BitVec.eq_of_getLsbD_eq
    intro j hj
    have hq := h (64 * i + j)
    have hdiv : (64 * i + j) / 64 = i := by omega
    have hmod : (64 * i + j) % 64 = j := by omega
    simpa [has, hdiv, hmod, List.getD_eq_getElem?_getD, hi, hi'] using hq
  cases b
  cases c
  simp_all

/-- Inserting more digests leaves a filter as it is exactly when it already
tests positive for all of them. -/
theorem insertAll_eq_self_iff {b : Bloom} {ds : List Digest} :
    b.insertAll ds = b ↔ ∀ d ∈ ds, b.contains d = true := by
  constructor
  · intro heq d hd
    rw [← heq]
    exact insertAll_contains hd
  · intro hall
    apply ext_has (insertAll_mBits b ds)
    intro q
    rw [insertAll_has, Bool.or_eq_left_iff_imp]
    intro hq
    simp only [decide_eq_true_eq] at hq
    obtain ⟨d, hd, hqd⟩ := hq
    exact contains_iff.mp (hall d hd) q hqd

/-- An empty filter tests negative for everything. -/
theorem new_contains (mBits : Nat) (d : Digest) : (new mBits).contains d = false := by
  simp only [contains, positions, bloomK, List.all_map, List.all_eq_false, List.mem_range,
    Function.comp_apply, new_has]
  exact ⟨0, by decide, by simp⟩

theorem decodeWords_words (ws : List (BitVec 64)) :
    decodeWords ws.length (ws.flatMap fun w => leBytes 8 w.toNat) = ws := by
  induction ws with
  | nil => rfl
  | cons w ws ih =>
      have hlen : (leBytes 8 w.toNat).length = 8 := leBytes_length 8 w.toNat
      simp only [List.length_cons, decodeWords, List.flatMap_cons]
      have hword : w.toNat < 256 ^ 8 := w.isLt
      rw [List.take_left' hlen, List.drop_left' hlen, ih, ofLeBytes_leBytes 8 hword,
        BitVec.ofNat_toNat, BitVec.setWidth_eq]

theorem length_words (ws : List (BitVec 64)) :
    (ws.flatMap fun w => leBytes 8 w.toNat).length = ws.length * 8 := by
  simp [List.length_flatMap]

/-- What a peer decodes is the filter that was sent. -/
theorem fromBytes_toBytes (b : Bloom) (hm : b.mBits < 2 ^ 64) : fromBytes b.toBytes = some b := by
  have hlen : (leBytes 8 b.mBits).length = 8 := leBytes_length 8 b.mBits
  have hhead : ofLeBytes (b.toBytes.take 8) = b.mBits := by
    rw [toBytes, List.take_left' hlen, ofLeBytes_leBytes 8 (by simpa using hm)]
  have htail : b.toBytes.drop 8 = b.bits.flatMap fun w => leBytes 8 w.toNat := by
    rw [toBytes, List.drop_left' hlen]
  have hlong : ¬ b.toBytes.length < 8 := by
    simp [toBytes]
  have hwords : decodeWords ((b.mBits + 63) / 64) (b.bits.flatMap fun w => leBytes 8 w.toNat) =
      b.bits := by
    rw [← b.length_bits, decodeWords_words]
  unfold fromBytes
  simp only [hhead, htail, hlong, if_false, length_words, b.length_bits, ne_eq, not_true_eq_false]
  rw [dif_neg (not_lt.mpr b.le_mBits)]
  simp only [hwords]

end Bloom

end BlobCache
