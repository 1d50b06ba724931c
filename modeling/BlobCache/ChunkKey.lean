import BlobCache.Bytes

/-!
Chunk keys, the names of chunk files and the names of temporary files. SHA-256
is a parameter: the names are collision-free on the keys of a run exactly when
the digests are.

`cache_filename` and `key_digest` feed a hasher of their own, part by part. What
the two are fed is the same, and it names the key.
-/

namespace BlobCache

structure ChunkKey where
  mount : String
  blob : String
  offset : Nat
  deriving DecidableEq, Repr

namespace ChunkKey

/-- The bytes that `cache_filename` and `key_digest` hash. -/
def preimage (key : ChunkKey) : Bytes :=
  key.mount.toUTF8.toList ++ [0] ++ key.blob.toUTF8.toList ++ [0] ++ leBytes 8 key.offset

/-- The hashed bytes name the key when the mount has no NUL; the offset has a fixed
width, so the blob may have some. -/
theorem preimage_inj {key key' : ChunkKey} (hmount : 0 ∉ utf8 key.mount)
    (hmount' : 0 ∉ utf8 key'.mount) (hoffset : key.offset < 2 ^ 64)
    (hoffset' : key'.offset < 2 ^ 64) (h : key.preimage = key'.preimage) : key = key' := by
  simp only [preimage, toList_toUTF8, List.append_assoc, List.cons_append, List.nil_append] at h
  obtain ⟨hm, hrest⟩ := append_sep_inj hmount hmount' h
  obtain ⟨hb, htail⟩ := List.append_inj' hrest (by simp)
  have ho : key.offset = key'.offset := by
    rw [← ofLeBytes_leBytes 8 hoffset, (List.cons.inj htail).2, ofLeBytes_leBytes 8 hoffset']
  cases key
  cases key'
  rw [ChunkKey.mk.injEq]
  exact ⟨utf8_inj hm, utf8_inj hb, ho⟩

def cacheFilename (sha256 : Bytes → Digest) (key : ChunkKey) : String :=
  hex (sha256 key.preimage).toList

end ChunkKey

def keyDigest (sha256 : Bytes → Digest) (key : ChunkKey) : Digest := sha256 key.preimage

/-! ## What is hashed -/

/-- A `Sha256` between `new` and `finalize`, by the bytes it has been given. -/
structure Hasher where
  fed : Bytes

namespace Hasher

def new : Hasher := ⟨[]⟩

def update (h : Hasher) (part : Bytes) : Hasher := ⟨h.fed ++ part⟩

def finalize (sha256 : Bytes → Digest) (h : Hasher) : Digest := sha256 h.fed

end Hasher

/-- The hasher of `cache_filename` when it is finalized. -/
def cacheFilenameHasher (key : ChunkKey) : Hasher :=
  let h := Hasher.new
  let h := h.update (utf8 key.mount)
  let h := h.update [0]
  let h := h.update (utf8 key.blob)
  let h := h.update [0]
  h.update (leBytes 8 key.offset)

/-- The hasher of `key_digest` when it is finalized. -/
def keyDigestHasher (key : ChunkKey) : Hasher :=
  let h := Hasher.new
  let h := h.update (utf8 key.mount)
  let h := h.update [0]
  let h := h.update (utf8 key.blob)
  let h := h.update [0]
  h.update (leBytes 8 key.offset)

theorem cacheFilenameHasher_fed (key : ChunkKey) :
    (cacheFilenameHasher key).fed = key.preimage := by
  rw [ChunkKey.preimage, toList_toUTF8, toList_toUTF8]
  rfl

theorem keyDigestHasher_fed (key : ChunkKey) : (keyDigestHasher key).fed = key.preimage := by
  rw [ChunkKey.preimage, toList_toUTF8, toList_toUTF8]
  rfl

/-- Two byte strings with one digest. -/
def Collision (sha256 : Bytes → Digest) (a b : Bytes) : Prop := a ≠ b ∧ sha256 a = sha256 b

theorem cacheFilename_eq_iff (sha256 : Bytes → Digest) (key key' : ChunkKey) :
    key.cacheFilename sha256 = key'.cacheFilename sha256 ↔
      keyDigest sha256 key = keyDigest sha256 key' := by
  constructor
  · intro hname
    exact Vector.toList_inj.mp (hex_inj hname)
  · intro hdigest
    change sha256 key.preimage = sha256 key'.preimage at hdigest
    rw [ChunkKey.cacheFilename, hdigest, ChunkKey.cacheFilename]

/-- The bytes that are hashed name the key, and they are the same for the file and for
the digest. Two chunks share a file just if they share a digest, and then what is hashed
for them is a collision. -/
theorem chunk_key_encoding (sha256 : Bytes → Digest) :
    (∀ key : ChunkKey,
      key.cacheFilename sha256 = hex ((cacheFilenameHasher key).finalize sha256).toList ∧
      keyDigest sha256 key = (keyDigestHasher key).finalize sha256 ∧
      (keyDigestHasher key).fed = (cacheFilenameHasher key).fed) ∧
    (∀ a b : Bytes, hex a = hex b → a = b) ∧
    ∀ key key' : ChunkKey, 0 ∉ utf8 key.mount → 0 ∉ utf8 key'.mount →
      key.offset < 2 ^ 64 → key'.offset < 2 ^ 64 →
      ((cacheFilenameHasher key).fed = (cacheFilenameHasher key').fed →
        key.mount = key'.mount ∧ key.blob = key'.blob ∧ key.offset = key'.offset) ∧
      (key.cacheFilename sha256 = key'.cacheFilename sha256 ↔
        keyDigest sha256 key = keyDigest sha256 key') ∧
      (key ≠ key' → keyDigest sha256 key = keyDigest sha256 key' →
        Collision sha256 (cacheFilenameHasher key).fed (cacheFilenameHasher key').fed) := by
  refine ⟨?_, fun a b => hex_inj, ?_⟩
  · intro key
    rw [Hasher.finalize, Hasher.finalize, cacheFilenameHasher_fed, keyDigestHasher_fed]
    exact ⟨rfl, rfl, rfl⟩
  · intro key key' hmount hmount' hoffset hoffset'
    rw [cacheFilenameHasher_fed, cacheFilenameHasher_fed]
    have hinj : key.preimage = key'.preimage → key = key' :=
      ChunkKey.preimage_inj hmount hmount' hoffset hoffset'
    refine ⟨?_, cacheFilename_eq_iff sha256 key key', ?_⟩
    · intro hfed
      rw [hinj hfed]
      exact ⟨rfl, rfl, rfl⟩
    · intro hne hdigest
      exact ⟨fun hfed => hne (hinj hfed), hdigest⟩

/-- Blobs with a NUL and offsets that begin with one are told apart. -/
theorem chunk_key_encoding_of_nul :
    (cacheFilenameHasher ⟨"m", "b\x00", 0⟩).fed ≠ (cacheFilenameHasher ⟨"m", "b", 0⟩).fed := by
  intro hfed
  obtain ⟨-, -, hkeys⟩ := chunk_key_encoding fun _ => .replicate 32 0
  have hparts := hkeys ⟨"m", "b\x00", 0⟩ ⟨"m", "b", 0⟩ (by decide) (by decide) (by decide)
    (by decide)
  have hblob := (hparts.1 hfed).2.1
  exact absurd hblob (by decide)

/-- The suffix of a temporary file: the clock and the process-wide counter. -/
def randHex (nanos tmpSeq : Nat) : String := lowerHex nanos ++ "." ++ lowerHex tmpSeq

/-- The name of a temporary file of process `pid`. -/
def tmpName (pid nanos tmpSeq : Nat) : String :=
  ".tmp." ++ toString pid ++ "." ++ randHex nanos tmpSeq

theorem tmpName_ne_cacheFilename (sha256 : Bytes → Digest) (key : ChunkKey)
    (pid nanos tmpSeq : Nat) : tmpName pid nanos tmpSeq ≠ key.cacheFilename sha256 := by
  intro heq
  apply dot_not_mem_hex (sha256 key.preimage).toList
  rw [← ChunkKey.cacheFilename, ← heq]
  simp [tmpName]

/-- Two temporary names of one process with different counters differ,
whatever the clock said. -/
theorem tmpName_inj {pid n n' q q' : Nat} (h : tmpName pid n q = tmpName pid n' q') :
    q = q' := by
  have hlist := congrArg String.toList h
  simp only [tmpName, randHex, lowerHex, String.toList_append, String.toList_ofList,
    List.append_assoc, List.append_cancel_left_eq] at hlist
  have hdot : (".".toList : List Char) = ['.'] := rfl
  rw [hdot] at hlist
  simp only [List.cons_append, List.nil_append] at hlist
  have hparts := append_sep_inj (dot_not_mem_toDigits n) (dot_not_mem_toDigits n') hlist
  exact toDigits_inj hparts.2

end BlobCache
