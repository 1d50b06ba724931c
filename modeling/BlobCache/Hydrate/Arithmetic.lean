import BlobCache.Azure.BlobUrl
import BlobCache.Config
import BlobCache.Hydrate.Grid
import BlobCache.Node.PrefetchTargets

/-!
The arithmetic on chunk offsets, from the configuration to the range of a request. With
a chunk size that `Config::validate` accepts and files of less than 2^63 bytes, no
operation on `u64` in `fetch_range`, `maybe_trigger_prefetch`, the enumeration of
`run_coordinator` or the header of `get_blob_range` leaves its range. The chunk size has
no upper bound: what keeps sums in range is that an offset inside a file is zero or at
least one chunk away from it.
-/

namespace BlobCache.Hydrate

open Checked Conc Node

/-! ## The enumeration, checked -/

def chunksFromChecked (chunkSize : Nat) (blob : String) (contentLength : Nat) :
    Nat → Nat → Except Fault (List ChunkSpec)
  | 0, _ => throw .unbounded
  | turns + 1, off =>
      if off < contentLength then do
        let left ← sub contentLength off
        let len := min chunkSize left
        let next ← add off len
        let rest ← chunksFromChecked chunkSize blob contentLength turns next
        return ⟨blob, off, len⟩ :: rest
      else return []

/-- The files that are counted and the chunks of all of them. -/
def allChunksChecked (chunkSize : Nat) (mount : MountConfig) (turns : Nat) :
    List ListedBlob → Nat → Except Fault (Nat × List ChunkSpec)
  | [], totalFiles => return (totalFiles, [])
  | b :: listed, totalFiles =>
      if b.contentLength = 0 then allChunksChecked chunkSize mount turns listed totalFiles
      else do
        let totalFiles ← add totalFiles 1
        let chunks ← chunksFromChecked chunkSize (blobPath mount b.name) b.contentLength turns 0
        let (totalFiles, rest) ← allChunksChecked chunkSize mount turns listed totalFiles
        return (totalFiles, chunks ++ rest)

def nonEmpty (listed : List ListedBlob) : Nat := listed.countP (·.contentLength ≠ 0)

theorem chunksFromChecked_eq {cs : Nat} (hcs : 0 < cs) (blob : String) {len : Nat}
    (hlen : len ≤ u64Max) {fuel turns off : Nat} (hturns : fuel < turns)
    (hfuel : len ≤ off + fuel) :
    chunksFromChecked cs blob len turns off = .ok (chunksFrom cs blob len fuel off) := by
  induction fuel generalizing turns off with
  | zero =>
      obtain ⟨turns, rfl⟩ := Nat.exists_eq_succ_of_ne_zero (Nat.ne_of_gt hturns)
      rw [chunksFromChecked, if_neg (by omega)]
      rfl
  | succ fuel ih =>
      obtain ⟨turns, rfl⟩ := Nat.exists_eq_succ_of_ne_zero (Nat.ne_of_gt (Nat.zero_lt_of_lt hturns))
      rw [chunksFromChecked, chunksFrom]
      split
      · rw [sub_eq (by omega), pure_bind]
        dsimp only
        rw [add_eq (by omega), pure_bind, ih (by omega) (by omega)]
        rfl
      · rfl

theorem allChunksChecked_eq {cs : Nat} (hcs : 0 < cs) (mount : MountConfig) {turns : Nat}
    {listed : List ListedBlob}
    (hlisted : ∀ b ∈ listed, b.contentLength < 2 ^ 63 ∧ b.contentLength < turns)
    {totalFiles : Nat} (htotal : totalFiles + listed.length ≤ u64Max) :
    allChunksChecked cs mount turns listed totalFiles =
      .ok (totalFiles + nonEmpty listed, allChunks cs mount listed) := by
  induction listed generalizing totalFiles with
  | nil => rfl
  | cons b listed ih =>
      obtain ⟨hsize, hturns⟩ := hlisted b List.mem_cons_self
      have hrest : ∀ b ∈ listed, b.contentLength < 2 ^ 63 ∧ b.contentLength < turns :=
        fun b hb => hlisted b (List.mem_cons_of_mem _ hb)
      rw [List.length_cons] at htotal
      rw [allChunksChecked]
      split
      · rename_i hzero
        have hcount : nonEmpty (b :: listed) = nonEmpty listed := by simp [nonEmpty, hzero]
        have hchunks : allChunks cs mount (b :: listed) = allChunks cs mount listed := by
          simp [allChunks, hzero]
        rw [ih hrest (by omega), hcount, hchunks]
      · rename_i hzero
        have hcount : nonEmpty (b :: listed) = 1 + nonEmpty listed := by
          simp [nonEmpty, hzero, Nat.add_comm]
        have hchunks : allChunks cs mount (b :: listed) =
            blobChunks cs (blobPath mount b.name) b.contentLength ++ allChunks cs mount listed := by
          simp [allChunks, hzero]
        have hlen : b.contentLength ≤ u64Max := by
          unfold u64Max
          omega
        rw [add_eq (by omega), pure_bind,
          chunksFromChecked_eq hcs _ hlen hturns (by omega), ih hrest (by omega), hcount, hchunks,
          ← Nat.add_assoc]
        rfl

/-! ## The range of a request, checked -/

def rangeHeaderChecked (offset length : Nat) : Except Fault String := do
  let stop ← add offset length
  let last ← sub stop 1
  return s!"bytes={offset}-{last}"

theorem rangeHeaderChecked_eq {offset length : Nat} (hpos : 0 < length)
    (hmax : offset + length ≤ u64Max) :
    rangeHeaderChecked offset length =
      .ok (Azure.rangeHeader (UInt64.ofNat offset) (UInt64.ofNat length)) := by
  have hsize : u64Max < UInt64.size := by decide
  have hoffset : (UInt64.ofNat offset).toNat = offset := UInt64.toNat_ofNat_of_lt' (by omega)
  have hsum : (UInt64.ofNat offset + UInt64.ofNat length).toNat = offset + length := by
    rw [← UInt64.ofNat_add]
    exact UInt64.toNat_ofNat_of_lt' (by omega)
  have hlast : (UInt64.ofNat offset + UInt64.ofNat length - 1).toNat = offset + length - 1 := by
    have hone : (1 : UInt64) ≤ UInt64.ofNat offset + UInt64.ofNat length := by
      rw [UInt64.le_iff_toNat_le, hsum]
      change 1 ≤ offset + length
      omega
    rw [UInt64.toNat_sub_of_le _ _ hone, hsum]
    rfl
  have htext (n : UInt64) : toString n = toString n.toNat := rfl
  rw [rangeHeaderChecked, add_eq hmax, pure_bind, sub_eq (by omega), pure_bind]
  unfold Azure.rangeHeader
  dsimp only
  rw [htext, htext, hoffset, hlast]
  rfl

/-! ## All of it -/

section Exact

variable (cfg : NodeConfig) (mount : MountConfig) (blob : String) (offset length fileSize : Nat)

/-- The last chunk that a read touches. -/
def lastChunk : Nat :=
  (readEnd offset length fileSize - 1) / cfg.chunkSize * cfg.chunkSize

/-- What the call of `maybe_trigger_prefetch` in a read does, among other threads. -/
def prefetchTrace (others : Nat → State → State) (choice : Nat → Choice) (t : Nat) (s : State) :
    List (Act (machine cfg)) :=
  (maybeTriggerPrefetch cfg mount blob offset (readEnd offset length fileSize) fileSize).watch
    (machine cfg) others choice t 0 s

/-- A chunk that a read, a prefetch or the enumeration asks for. -/
def Asked (o : Nat) : Prop :=
  ∃ n, Requested cfg mount blob fileSize o n ∨ Prefetched cfg mount blob fileSize o n ∨
    ⟨blob, o, n⟩ ∈ blobChunks cfg.chunkSize blob fileSize

/-- The chunks that the call starts to fetch, whatever the other threads do meanwhile. -/
structure ExactPrefetch : Prop where
  idle : ∀ others choice t s j,
    ¬ Triggers cfg (others 0 s).fetch mount blob offset (readEnd offset length fileSize) →
    .began j ∉ prefetchTrace cfg mount blob offset length fileSize others choice t s
  targets : ∀ others choice t s,
    Triggers cfg (others 0 s).fetch mount blob offset (readEnd offset length fileSize) →
    Targets cfg mount blob (lastChunk cfg offset length fileSize) fileSize
      (prefetchTrace cfg mount blob offset length fileSize others choice t s) 1 cfg.prefetchDepth
  alone : ∀ choice t s j,
    Triggers cfg s.fetch mount blob offset (readEnd offset length fileSize) →
    (.began j ∈ prefetchTrace cfg mount blob offset length fileSize (fun _ s => s) choice t s ↔
      ∃ i o, 1 ≤ i ∧ i ≤ cfg.prefetchDepth ∧
        o = lastChunk cfg offset length fileSize + i * cfg.chunkSize ∧ o < fileSize ∧
        j = .prefetchTask mount blob o (min cfg.chunkSize (fileSize - o)) ∧
        s.cached ⟨mount.name, blob, o⟩ = false ∧ s.writing ⟨mount.name, blob, o⟩ = false ∧
        s.fetching ⟨mount.name, blob, o⟩ = false)

/-- The checked programs are the unchecked ones, and the prefetch is exact. -/
structure ExactArithmetic : Prop where
  reads : ∀ turns, fileSize / cfg.chunkSize + 1 < turns →
    fetchRangeChecked cfg turns mount blob offset length fileSize =
      liftM (fetchRange cfg mount blob offset length fileSize)
  tracker : ∀ (f : FetchState) reqEnd,
    trackReadChecked f mount.name blob offset reqEnd cfg.chunkSize =
      .ok (f.trackRead mount.name blob offset reqEnd cfg.chunkSize)
  listing : ∀ listed turns,
    (∀ b ∈ listed, b.contentLength < 2 ^ 63 ∧ b.contentLength < turns) →
    listed.length ≤ u64Max →
    allChunksChecked cfg.chunkSize mount turns listed 0 =
      .ok (nonEmpty listed, allChunks cfg.chunkSize mount listed)
  ranges : ∀ o, Asked cfg mount blob fileSize o →
    rangeHeaderChecked o cfg.chunkSize =
      .ok (Azure.rangeHeader (UInt64.ofNat o) (UInt64.ofNat cfg.chunkSize))
  prefetch : offset < readEnd offset length fileSize →
    ExactPrefetch cfg mount blob offset length fileSize

end Exact

variable {cfg : NodeConfig} {mount : MountConfig} {blob : String} {offset length fileSize : Nat}

/-- An offset that is asked for is inside the file and a multiple of the chunk size. -/
theorem Asked.add_le (hcs : 0 < cfg.chunkSize) (hmax : cfg.chunkSize ≤ u64Max)
    (hsize : fileSize < 2 ^ 63) {o : Nat} (h : Asked cfg mount blob fileSize o) :
    o + cfg.chunkSize ≤ u64Max := by
  have hbound : fileSize ≤ u64Max := by
    unfold u64Max
    omega
  have hend : lastChunkEnd cfg.chunkSize fileSize ≤ u64Max := add_chunkSize_le hmax (by omega)
  have hgrid : cfg.chunkSize ∣ o ∧ o < fileSize := by
    obtain ⟨n, h | h | h⟩ := h
    · obtain ⟨hdvd, hlt, -⟩ := (requested_iff hbound).mp h
      exact ⟨hdvd, hlt⟩
    · obtain ⟨hdvd, hlt, -⟩ := prefetched_isChunk hcs (hend.trans (Nat.sub_le _ _)) h
      exact ⟨hdvd, hlt⟩
    · obtain ⟨hdvd, hlt, -⟩ := (isChunk_iff hcs).mp h
      exact ⟨hdvd, hlt⟩
  exact (add_le_lastChunkEnd hcs hgrid.1 hgrid.2).trans hend

theorem exactPrefetch (hcs : 0 < cfg.chunkSize) (hmax : cfg.chunkSize ≤ u64Max)
    (hsize : fileSize < 2 ^ 63) (hlt : offset < readEnd offset length fileSize) :
    ExactPrefetch cfg mount blob offset length fileSize := by
  have hle : readEnd offset length fileSize ≤ fileSize := Nat.min_le_right _ _
  have hend : 0 < readEnd offset length fileSize := Nat.zero_lt_of_lt hlt
  have htargets (others : Nat → State → State) (choice : Nat → Choice) (t : Nat) (s : State)
      (h : Triggers cfg (others 0 s).fetch mount blob offset (readEnd offset length fileSize)) :
      Targets cfg mount blob (lastChunk cfg offset length fileSize) fileSize
        (prefetchTrace cfg mount blob offset length fileSize others choice t s) 1
        cfg.prefetchDepth :=
    maybeTriggerPrefetch_targets hcs hmax hend hle hsize h
  refine ⟨fun others choice t s j h => maybeTriggerPrefetch_idle h j, htargets, ?_⟩
  intro choice t s j h
  have htrace := htargets (fun _ s => s) choice t s h
  have halike : Alike s (prefetchTrace cfg mount blob offset length fileSize (fun _ s => s)
      choice t s) := maybeTriggerPrefetch_alike hend h
  constructor
  · intro hj
    obtain ⟨i, hi, hdepth, hin, rfl⟩ := htrace.began j hj
    obtain ⟨v, hv, hiff⟩ := htrace.judged i hi hdepth hin
    have hfree := (hv.of_alike halike).symm.trans (hiff.mp hj)
    simp only [Bool.and_eq_true, Bool.not_eq_true'] at hfree
    exact ⟨i, _, hi, by omega, rfl, hin, rfl, hfree.1.1, hfree.1.2, hfree.2⟩
  · rintro ⟨i, o, hi, hdepth, rfl, hin, rfl, hcached, hwriting, hfetching⟩
    obtain ⟨v, hv, hiff⟩ := htrace.judged i hi (by omega) hin
    apply hiff.mpr
    rw [hv.of_alike halike]
    unfold ahead
    rw [hcached, hwriting, hfetching]
    rfl

theorem validate_chunkSize {conf : Conf.Config} {debugText : String → String}
    (h : conf.validate debugText = .ok ()) : 0 < conf.chunkSize := by
  unfold Conf.Config.validate at h
  split at h
  · cases h
  · rename_i hsize
    rw [not_or] at hsize
    exact Nat.pos_of_ne_zero hsize.1

/-- With a chunk size that `Config::validate` accepts and a file of less than 2^63 bytes, no
operation on chunk offsets leaves the range of `u64`, the loops end, and a prefetch that is
triggered starts fetches of exactly the chunks ahead that are missing. -/
theorem chunk_arithmetic_exact {conf : Conf.Config} {debugText : String → String}
    (hvalid : conf.validate debugText = .ok ()) (hu64 : conf.chunkSize ≤ u64Max)
    (cfg : NodeConfig) (hcfg : cfg.chunkSize = conf.chunkSize) (mount : MountConfig)
    (blob : String) (offset length fileSize : Nat) (hsize : fileSize < 2 ^ 63) :
    ExactArithmetic cfg mount blob offset length fileSize := by
  have hcs : 0 < cfg.chunkSize := hcfg ▸ validate_chunkSize hvalid
  have hmax : cfg.chunkSize ≤ u64Max := hcfg ▸ hu64
  constructor
  · intro turns hturns
    exact fetchRangeChecked_eq hcs hmax hsize hturns
  · intro f reqEnd
    exact trackReadChecked_eq f mount.name blob offset reqEnd cfg.chunkSize
  · intro listed turns hlisted hlength
    rw [allChunksChecked_eq hcs mount hlisted (by omega), Nat.zero_add]
  · intro o ho
    exact rangeHeaderChecked_eq hcs (ho.add_le hcs hmax hsize)
  · intro hlt
    exact exactPrefetch hcs hmax hsize hlt

def confOf (chunkSize : Nat) : Conf.Config where
  chunkSize := chunkSize
  poolMaxIdlePerHost := 1
  workers := 1
  mainWorkerThreads := 1
  blockSize := 0
  mounts := [sampleMount]
  transportKind := "tcp"

def prefetching : NodeConfig :=
  { sampleConfig with prefetchDepth := 2, prefetchThreshold := 1 }

/-- The largest chunk size that is accepted, and a read on an empty node that prefetches the
next chunk. -/
theorem chunk_arithmetic_exact_of_largest :
    ExactArithmetic { sampleConfig with chunkSize := 2 ^ 64 - 4096 } sampleMount "b"
      (2 ^ 63 - 2) 1 (2 ^ 63 - 1) ∧
    .began (.prefetchTask sampleMount "b" 4096 904) ∈
      prefetchTrace prefetching sampleMount "b" 0 1 5000 (fun _ s => s)
        (fun _ => Choice.benign) 0 (State.new prefetching) := by
  have hlargest : (confOf (2 ^ 64 - 4096)).validate id = .ok () := by decide +kernel
  have hpage : (confOf 4096).validate id = .ok () := by decide +kernel
  have htriggers : Triggers prefetching (State.new prefetching).fetch sampleMount "b" 0
      (readEnd 0 1 5000) := by
    refine ⟨by decide, by decide, ?_⟩
    rintro ⟨horigin, -⟩
    cases horigin
  constructor
  · exact chunk_arithmetic_exact hlargest (by decide) _ rfl _ _ _ _ _ (by decide)
  · have hexact := chunk_arithmetic_exact hpage (by decide) prefetching rfl sampleMount "b" 0 1
      5000 (by decide)
    exact ((hexact.prefetch (by decide)).alone _ _ _ _ htriggers).mpr
      ⟨1, 4096, by decide, by decide, rfl, by decide, rfl, rfl, rfl, rfl⟩

end BlobCache.Hydrate
