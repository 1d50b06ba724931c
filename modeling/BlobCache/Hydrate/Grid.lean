import BlobCache.Conc.Starts
import BlobCache.Hydrate.Plan
import BlobCache.Node.Ranges
import BlobCache.Node.Replay

/-!
The chunks that hydration enumerates and the chunks that reads and prefetches
ask for: all multiples of the chunk size below the length, the last one cut off
at the end. `fetch_range` checks the step to the next chunk for overflow.
`maybe_trigger_prefetch` does not, so that for a file whose last chunk ends
beyond the range of `u64` it comes round to offsets between the chunks.
-/

namespace BlobCache.Hydrate

open Conc Node

/-! ## The enumeration -/

/-- The length of the chunk at `off`. -/
def chunkLen (chunkSize contentLength off : Nat) : Nat := min chunkSize (contentLength - off)

theorem chunksFrom_end {cs : Nat} (blob : String) {len fuel off : Nat} (h : len ≤ off) :
    chunksFrom cs blob len fuel off = [] := by
  cases fuel with
  | zero => rfl
  | succ fuel => rw [chunksFrom, if_neg (Nat.not_lt.mpr h)]

theorem le_of_mem_chunksFrom {cs : Nat} {blob : String} {len fuel off : Nat} {c : ChunkSpec}
    (hc : c ∈ chunksFrom cs blob len fuel off) : off ≤ c.offset := by
  induction fuel generalizing off with
  | zero => cases hc
  | succ fuel ih =>
      simp only [chunksFrom] at hc
      split at hc
      · rcases List.mem_cons.mp hc with rfl | hc
        · exact le_rfl
        · exact (Nat.le_add_right _ _).trans (ih hc)
      · cases hc

theorem chunksFrom_disjoint (cs : Nat) (blob : String) (len fuel off : Nat) :
    (chunksFrom cs blob len fuel off).Pairwise fun c d => c.offset + c.len ≤ d.offset := by
  induction fuel generalizing off with
  | zero => exact List.Pairwise.nil
  | succ fuel ih =>
      simp only [chunksFrom]
      split
      · apply List.Pairwise.cons _ (ih _)
        intro d hd
        exact le_of_mem_chunksFrom hd
      · exact List.Pairwise.nil

/-- The loop goes through the multiples of the chunk size. The fuel is enough
when it counts the bytes that are left. -/
theorem mem_chunksFrom {cs : Nat} (hcs : 0 < cs) (blob : String) {len fuel off : Nat}
    (hfuel : len ≤ off + fuel) (c : ChunkSpec) :
    c ∈ chunksFrom cs blob len fuel off ↔
      ∃ i, off + i * cs < len ∧ c = ⟨blob, off + i * cs, chunkLen cs len (off + i * cs)⟩ := by
  induction fuel generalizing off with
  | zero =>
      simp only [chunksFrom, List.not_mem_nil, false_iff]
      rintro ⟨i, hi, -⟩
      omega
  | succ fuel ih =>
      simp only [chunksFrom]
      by_cases hlt : off < len
      · have hfirst : (⟨blob, off, min cs (len - off)⟩ : ChunkSpec) =
            ⟨blob, off + 0 * cs, chunkLen cs len (off + 0 * cs)⟩ := by
          simp [chunkLen]
        rw [if_pos hlt, List.mem_cons, hfirst]
        by_cases hnext : off + cs < len
        · rw [Nat.min_eq_left (by omega), ih (by omega)]
          constructor
          · rintro (rfl | ⟨i, hi, rfl⟩)
            · exact ⟨0, by omega, rfl⟩
            · refine ⟨i + 1, ?_, ?_⟩
              · rw [Nat.succ_mul]
                omega
              · rw [Nat.succ_mul, Nat.add_comm (i * cs), Nat.add_assoc]
          · rintro ⟨i, hi, rfl⟩
            cases i with
            | zero => exact .inl rfl
            | succ i =>
                rw [Nat.succ_mul, Nat.add_comm (i * cs), ← Nat.add_assoc] at hi ⊢
                exact .inr ⟨i, hi, rfl⟩
        · have hend : len ≤ off + min cs (len - off) := by omega
          rw [chunksFrom_end blob hend]
          simp only [List.not_mem_nil, or_false]
          constructor
          · rintro rfl
            exact ⟨0, by omega, rfl⟩
          · rintro ⟨i, hi, rfl⟩
            cases i with
            | zero => rfl
            | succ i =>
                rw [Nat.succ_mul] at hi
                omega
      · rw [if_neg hlt]
        simp only [List.not_mem_nil, false_iff]
        rintro ⟨i, hi, -⟩
        omega

/-- The chunks of a blob: one for each multiple of the chunk size. -/
theorem mem_blobChunks {cs : Nat} (hcs : 0 < cs) {blob : String} {len : Nat} {c : ChunkSpec} :
    c ∈ blobChunks cs blob len ↔
      cs ∣ c.offset ∧ c.offset < len ∧ c = ⟨blob, c.offset, chunkLen cs len c.offset⟩ := by
  rw [blobChunks, mem_chunksFrom hcs blob (by omega)]
  simp only [Nat.zero_add]
  constructor
  · rintro ⟨i, hi, rfl⟩
    exact ⟨Nat.dvd_mul_left cs i, hi, rfl⟩
  · rintro ⟨⟨i, hi⟩, hlt, hc⟩
    rw [Nat.mul_comm] at hi
    rw [hi] at hlt hc
    exact ⟨i, hlt, hc⟩

/-! ## The requests of reads and prefetches -/

variable {cfg : NodeConfig} {mount : MountConfig} {blob : String}

theorem spawn_spawns {i j : Job} : (spawn i).Spawns j ↔ i = j := by
  change (i = j ∨ ∃ _ : Handle effect, False) ↔ i = j
  simp

theorem disk_bind_spawns {o : Cache.DiskOp} {β : Type} {f : o.Resp → NodeM β} {j : Job} :
    (disk o >>= f).Spawns j ↔ ∃ r, (f r).Spawns j := Iff.rfl

theorem fetch_bind_spawns {o : FetchOp} {β : Type} {f : o.Resp → NodeM β} {j : Job} :
    (fetch o >>= f).Spawns j ↔ ∃ r, (f r).Spawns j := Iff.rfl

theorem joinChunks_spawns (hs : List (Handle effect)) (j : Job) : ¬(joinChunks hs).Spawns j := by
  induction hs with
  | nil => exact id
  | cons h hs ih =>
      intro hspawn
      rcases Program.spawns_bind.mp hspawn with ⟨v, hv⟩ | ⟨v, -, hrest⟩
      · exact hv
      · split at hrest
        · rcases Program.spawns_bind.mp hrest with hjoin | ⟨r, -, hr⟩
          · exact ih hjoin
          · split at hr <;> exact hr
        · exact hrest
        · exact hrest

theorem spawnAll_spawns {jobs : List Job} {j : Job} : (spawnAll jobs).Spawns j ↔ j ∈ jobs := by
  induction jobs with
  | nil => exact (List.mem_nil_iff j).symm
  | cons i jobs ih =>
      refine Program.spawns_bind.trans ?_
      rw [List.mem_cons, eq_comm]
      refine or_congr spawn_spawns ?_
      constructor
      · rintro ⟨h, -, hrest⟩
        rcases Program.spawns_bind.mp hrest with hall | ⟨hs, -, hret⟩
        · exact ih.mp hall
        · exact absurd hret id
      · intro hmem
        exact ⟨⟨0, i⟩, ⟨⟨0, i⟩, rfl⟩, Program.spawns_bind.mpr (.inl (ih.mpr hmem))⟩

/-- Where the prefetch of the `i`-th chunk ahead looks. -/
def prefetchOffset (cfg : NodeConfig) (curChunk i : Nat) : Nat :=
  (curChunk + i * cfg.chunkSize) % 2 ^ 64

theorem prefetchLoop_spawns_cons {cur fileSize i : Nat} {steps : List Nat} {j : Job} :
    (prefetchLoop cfg mount blob cur fileSize (i :: steps)).Spawns j ↔
      prefetchOffset cfg cur i < fileSize ∧
        (j = .prefetchTask mount blob (prefetchOffset cfg cur i)
            (chunkLen cfg.chunkSize fileSize (prefetchOffset cfg cur i)) ∨
          (prefetchLoop cfg mount blob cur fileSize steps).Spawns j) := by
  constructor
  · intro h
    unfold prefetchLoop at h
    dsimp only at h
    split at h
    · exact absurd h id
    · rename_i hlt
      refine ⟨Nat.not_le.mp hlt, ?_⟩
      obtain ⟨cached, h⟩ := disk_bind_spawns.mp h
      split at h
      · exact .inr h
      · obtain ⟨writing, h⟩ := fetch_bind_spawns.mp h
        split at h
        · exact .inr h
        · obtain ⟨inflight, h⟩ := fetch_bind_spawns.mp h
          split at h
          · exact .inr h
          · rcases h with h | ⟨hd, h⟩
            · exact .inl h.symm
            · exact .inr h
  · rintro ⟨hlt, hj⟩
    unfold prefetchLoop
    dsimp only
    split
    · rename_i hge
      exact absurd hlt (Nat.not_lt.mpr hge)
    · apply disk_bind_spawns.mpr
      rcases hj with rfl | hrest
      · exact ⟨none, none, false, .inl rfl⟩
      · exact ⟨some 0, hrest⟩

/-- The loop starts a prefetch at an offset inside the file, when all offsets
before it were inside as well. -/
theorem prefetchLoop_spawns {cur fileSize : Nat} {steps : List Nat} {j : Job} :
    (prefetchLoop cfg mount blob cur fileSize steps).Spawns j ↔
      ∃ before i after, steps = before ++ i :: after ∧
        (∀ i' ∈ before, prefetchOffset cfg cur i' < fileSize) ∧
        prefetchOffset cfg cur i < fileSize ∧
        j = .prefetchTask mount blob (prefetchOffset cfg cur i)
          (chunkLen cfg.chunkSize fileSize (prefetchOffset cfg cur i)) := by
  induction steps with
  | nil =>
      constructor
      · exact fun h => absurd h id
      · rintro ⟨before, i, after, hnil, -⟩
        simp at hnil
  | cons i steps ih =>
      rw [prefetchLoop_spawns_cons, ih]
      constructor
      · rintro ⟨hlt, rfl | ⟨before, i', after, rfl, hbefore, hin, rfl⟩⟩
        · exact ⟨[], i, steps, rfl, by simp, hlt, rfl⟩
        · exact ⟨i :: before, i', after, rfl, List.forall_mem_cons.mpr ⟨hlt, hbefore⟩, hin, rfl⟩
      · rintro ⟨before, i', after, hsteps, hbefore, hin, rfl⟩
        cases before with
        | nil =>
            cases hsteps
            exact ⟨hin, .inl rfl⟩
        | cons b before =>
            cases hsteps
            obtain ⟨hlt, hbefore⟩ := List.forall_mem_cons.mp hbefore
            exact ⟨hlt, .inr ⟨before, i', after, rfl, hbefore, hin, rfl⟩⟩

def currentChunk (cfg : NodeConfig) (reqEnd : Nat) : Nat :=
  if reqEnd = 0 then 0 else (reqEnd - 1) / cfg.chunkSize * cfg.chunkSize

theorem maybeTriggerPrefetch_spawns {reqOffset reqEnd fileSize : Nat} {j : Job} :
    (maybeTriggerPrefetch cfg mount blob reqOffset reqEnd fileSize).Spawns j ↔
      cfg.prefetchDepth ≠ 0 ∧ (prefetchLoop cfg mount blob (currentChunk cfg reqEnd) fileSize
        ((List.range cfg.prefetchDepth).map (· + 1))).Spawns j := by
  unfold maybeTriggerPrefetch
  constructor
  · intro h
    split at h
    · exact absurd h id
    · rename_i hdepth
      refine ⟨hdepth, ?_⟩
      obtain ⟨streaks, h⟩ := fetch_bind_spawns.mp h
      split at h
      · exact absurd h id
      · split at h
        · exact absurd h id
        · exact h
  · rintro ⟨hdepth, h⟩
    split
    · rename_i hzero
      exact absurd hzero hdepth
    · apply fetch_bind_spawns.mpr
      refine ⟨(max cfg.prefetchThreshold 1, 1), ?_⟩
      split
      · rename_i hlt
        exact absurd hlt (lt_irrefl _)
      · split
        · rename_i hstreak
          cases hstreak.2
        · exact h

theorem maybeTriggerPrefetch_returns (reqOffset reqEnd fileSize : Nat) :
    (maybeTriggerPrefetch cfg mount blob reqOffset reqEnd fileSize).Returns () := by
  unfold maybeTriggerPrefetch
  split
  · rfl
  · refine ⟨(0, 0), ?_⟩
    change Program.Returns () (if 0 < max cfg.prefetchThreshold 1 then pure () else _)
    rw [if_pos (by omega)]
    rfl

/-- Where a read ends. -/
def readEnd (offset length fileSize : Nat) : Nat := min (saturatingAdd offset length) fileSize

theorem fetchRange_spawns {offset length fileSize : Nat} {j : Job} :
    (fetchRange cfg mount blob offset length fileSize).Spawns j ↔
      length ≠ 0 ∧ length ≤ maxReadBytes ∧ offset < readEnd offset length fileSize ∧
        ((maybeTriggerPrefetch cfg mount blob offset (readEnd offset length fileSize)
            fileSize).Spawns j ∨
          j ∈ (rangeOffsets cfg offset (readEnd offset length fileSize)).map
            (chunkTaskAt cfg mount blob offset (readEnd offset length fileSize) fileSize)) := by
  unfold fetchRange
  constructor
  · intro h
    split at h
    · exact absurd h id
    · rename_i hzero
      split at h
      · exact absurd h id
      · rename_i hmax
        dsimp only at h
        split at h
        · exact absurd h id
        · rename_i hstop
          refine ⟨hzero, by omega, Nat.not_le.mp hstop, ?_⟩
          rcases Program.spawns_bind.mp h with h | ⟨-, -, h⟩
          · exact .inl h
          · rcases Program.spawns_bind.mp h with h | ⟨hs, -, h⟩
            · exact .inr (spawnAll_spawns.mp h)
            · rcases Program.spawns_bind.mp h with h | ⟨r, -, h⟩
              · exact absurd h (joinChunks_spawns hs j)
              · split at h <;> exact absurd h id
  · rintro ⟨hzero, hmax, hstop, h⟩
    rw [if_neg hzero, if_neg (by omega)]
    dsimp only
    split
    · rename_i hnone
      exact absurd hstop (Nat.not_lt.mpr hnone)
    · apply Program.spawns_bind.mpr
      rcases h with h | h
      · exact .inl h
      · refine .inr ⟨(), maybeTriggerPrefetch_returns _ _ _, Program.spawns_bind.mpr (.inl ?_)⟩
        exact spawnAll_spawns.mpr h

/-- What `maybe_trigger_prefetch` starts, by the number of the chunk ahead. -/
theorem prefetch_spawns {reqOffset reqEnd fileSize : Nat} {j : Job} :
    (maybeTriggerPrefetch cfg mount blob reqOffset reqEnd fileSize).Spawns j ↔
      ∃ i, 1 ≤ i ∧ i ≤ cfg.prefetchDepth ∧
        (∀ i', 1 ≤ i' → i' < i → prefetchOffset cfg (currentChunk cfg reqEnd) i' < fileSize) ∧
        prefetchOffset cfg (currentChunk cfg reqEnd) i < fileSize ∧
        j = .prefetchTask mount blob (prefetchOffset cfg (currentChunk cfg reqEnd) i)
          (chunkLen cfg.chunkSize fileSize
            (prefetchOffset cfg (currentChunk cfg reqEnd) i)) := by
  rw [maybeTriggerPrefetch_spawns, prefetchLoop_spawns]
  constructor
  · rintro ⟨-, before, i, after, hsteps, hbefore, hin, rfl⟩
    have hlen : before.length < cfg.prefetchDepth := by
      have := congrArg List.length hsteps
      simp only [List.length_map, List.length_range, List.length_append,
        List.length_cons] at this
      omega
    have hi : i = before.length + 1 := by
      have := congrArg (fun l => l[before.length]?) hsteps
      simpa [hlen] using this.symm
    refine ⟨i, by omega, by omega, ?_, hin, rfl⟩
    intro i' hpos hlt
    apply hbefore
    have hget := congrArg (fun l => l[i' - 1]?) hsteps
    simp only [List.getElem?_map, List.getElem?_append_left (by omega : i' - 1 < before.length),
      List.getElem?_range (by omega : i' - 1 < cfg.prefetchDepth), Option.map_some] at hget
    rw [Nat.sub_add_cancel hpos] at hget
    exact List.mem_of_getElem? hget.symm
  · rintro ⟨i, hpos, hle, hbefore, hin, rfl⟩
    have hlen : i - 1 < ((List.range cfg.prefetchDepth).map (· + 1)).length := by
      rw [List.length_map, List.length_range]
      omega
    have hget : ((List.range cfg.prefetchDepth).map (· + 1))[i - 1] = i := by
      rw [List.getElem_map, List.getElem_range]
      omega
    refine ⟨by omega, ((List.range cfg.prefetchDepth).map (· + 1)).take (i - 1), i,
      ((List.range cfg.prefetchDepth).map (· + 1)).drop (i - 1 + 1), ?_, ?_, hin, rfl⟩
    · have hdrop := List.drop_eq_getElem_cons hlen
      rw [hget] at hdrop
      rw [← hdrop, List.take_append_drop]
    · intro i' hi'
      rw [← List.map_take, List.take_range] at hi'
      obtain ⟨m, hm, rfl⟩ := List.mem_map.mp hi'
      rw [List.mem_range] at hm
      exact hbefore _ (by omega) (by omega)

/-! ## Agreement -/

/-- A read of the file asks for the chunk at `o` with length `n`. -/
def Requested (cfg : NodeConfig) (mount : MountConfig) (blob : String) (fileSize o n : Nat) :
    Prop :=
  ∃ offset length takeStart takeLen,
    (fetchRange cfg mount blob offset length fileSize).Spawns
      (Job.chunkTask mount blob o takeStart takeLen n)

/-- A read of the file makes `maybe_trigger_prefetch` fetch the chunk at `o` with
length `n`. -/
def Prefetched (cfg : NodeConfig) (mount : MountConfig) (blob : String) (fileSize o n : Nat) :
    Prop :=
  ∃ offset length,
    (fetchRange cfg mount blob offset length fileSize).Spawns (Job.prefetchTask mount blob o n)

/-- Hydration, reads and prefetches cut the file in the same way. -/
structure GridAgrees (cfg : NodeConfig) (mount : MountConfig) (blob : String) (fileSize : Nat) :
    Prop where
  disjoint : (blobChunks cfg.chunkSize blob fileSize).Pairwise fun c d =>
    c.offset + c.len ≤ d.offset
  covers : ∀ x, x < fileSize ↔
    ∃ c ∈ blobChunks cfg.chunkSize blob fileSize, c.offset ≤ x ∧ x < c.offset + c.len
  requested : ∀ o n, ⟨blob, o, n⟩ ∈ blobChunks cfg.chunkSize blob fileSize ↔
    Requested cfg mount blob fileSize o n
  prefetched : ∀ o n, Prefetched cfg mount blob fileSize o n →
    ⟨blob, o, n⟩ ∈ blobChunks cfg.chunkSize blob fileSize
  accepted : ∀ o n n' d,
    ⟨blob, o, n⟩ ∈ blobChunks cfg.chunkSize blob fileSize ∨
      Prefetched cfg mount blob fileSize o n →
    Requested cfg mount blob fileSize o n' → d.length = n → ofLength n' (some d) = some d

/-- Where the last chunk would end if it were whole. -/
def lastChunkEnd (chunkSize fileSize : Nat) : Nat :=
  (fileSize - 1) / chunkSize * chunkSize + chunkSize

variable {fileSize : Nat}

theorem isChunk_iff (hcs : 0 < cfg.chunkSize) {o n : Nat} :
    (⟨blob, o, n⟩ : ChunkSpec) ∈ blobChunks cfg.chunkSize blob fileSize ↔
      cfg.chunkSize ∣ o ∧ o < fileSize ∧ n = chunkLen cfg.chunkSize fileSize o := by
  rw [mem_blobChunks hcs]
  simp

theorem blobChunks_cover (hcs : 0 < cfg.chunkSize) (x : Nat) :
    x < fileSize ↔
      ∃ c ∈ blobChunks cfg.chunkSize blob fileSize, c.offset ≤ x ∧ x < c.offset + c.len := by
  constructor
  · intro hx
    have hle := Nat.div_mul_le_self x cfg.chunkSize
    have hnear := Nat.lt_div_mul_add hcs (a := x)
    refine ⟨⟨blob, x / cfg.chunkSize * cfg.chunkSize, _⟩,
      (isChunk_iff hcs).mpr ⟨Nat.dvd_mul_left _ _, by omega, rfl⟩, hle, ?_⟩
    simp only [chunkLen]
    omega
  · rintro ⟨c, hc, -, hlt⟩
    obtain ⟨-, hoff, hc⟩ := (mem_blobChunks hcs).mp hc
    rw [hc] at hlt
    simp only [chunkLen] at hlt
    omega

theorem requested_iff (hmax : fileSize ≤ u64Max) {o n : Nat} :
    Requested cfg mount blob fileSize o n ↔
      cfg.chunkSize ∣ o ∧ o < fileSize ∧ n = chunkLen cfg.chunkSize fileSize o := by
  constructor
  · rintro ⟨offset, length, ts, tl, h⟩
    obtain ⟨-, -, hstop, h⟩ := fetchRange_spawns.mp h
    rcases h with h | h
    · obtain ⟨i, -, -, -, -, hj⟩ := prefetch_spawns.mp h
      cases hj
    · obtain ⟨x, hx, hj⟩ := List.mem_map.mp h
      cases hj
      obtain ⟨hlt, hdvd⟩ := rangeOffsets_mem hstop hx
      simp only [readEnd] at hlt
      exact ⟨hdvd, by omega, rfl⟩
  · rintro ⟨hdvd, hlt, rfl⟩
    have hend : readEnd o 1 fileSize = o + 1 := by
      simp only [readEnd, saturatingAdd]
      omega
    refine ⟨o, 1, takeStart o o, takeLen cfg o (readEnd o 1 fileSize) fileSize o,
      fetchRange_spawns.mpr ⟨Nat.one_ne_zero, by decide, by omega, .inr ?_⟩⟩
    apply List.mem_map.mpr
    refine ⟨o, ?_, rfl⟩
    have hself : o / cfg.chunkSize * cfg.chunkSize = o := Nat.div_mul_cancel hdvd
    rw [hend, rangeOffsets]
    simp only [Nat.add_sub_cancel, hself, Nat.sub_self, Nat.zero_div, chunkOffsets,
      le_refl, if_true, List.mem_cons, true_or]

/-- A multiple of the chunk size inside the file, and the next one. -/
theorem add_le_lastChunkEnd (hcs : 0 < cfg.chunkSize) {o : Nat} (hdvd : cfg.chunkSize ∣ o)
    (hlt : o < fileSize) : o + cfg.chunkSize ≤ lastChunkEnd cfg.chunkSize fileSize := by
  obtain ⟨i, rfl⟩ := hdvd
  have hi : i ≤ (fileSize - 1) / cfg.chunkSize := by
    rw [Nat.le_div_iff_mul_le hcs, Nat.mul_comm]
    omega
  have hmul := Nat.mul_le_mul_right cfg.chunkSize hi
  rw [lastChunkEnd, Nat.mul_comm cfg.chunkSize i]
  omega

theorem currentChunk_dvd (cfg : NodeConfig) (reqEnd : Nat) :
    cfg.chunkSize ∣ currentChunk cfg reqEnd := by
  unfold currentChunk
  split
  · exact Nat.dvd_zero _
  · exact Nat.dvd_mul_left _ _

theorem currentChunk_lt {reqEnd : Nat} (hpos : 0 < reqEnd) (hle : reqEnd ≤ fileSize) :
    currentChunk cfg reqEnd < fileSize := by
  have := Nat.div_mul_le_self (reqEnd - 1) cfg.chunkSize
  rw [currentChunk, if_neg (by omega)]
  omega

/-- As long as the offsets stay inside the file they do not wrap around. -/
theorem prefetch_no_wrap (hcs : 0 < cfg.chunkSize)
    (hend : lastChunkEnd cfg.chunkSize fileSize < 2 ^ 64) {cur i : Nat}
    (hdvd : cfg.chunkSize ∣ cur) (hcur : cur < fileSize)
    (hbefore : ∀ i', 1 ≤ i' → i' < i → prefetchOffset cfg cur i' < fileSize) :
    ∀ m ≤ i, cur + m * cfg.chunkSize ≤ lastChunkEnd cfg.chunkSize fileSize := by
  intro m
  induction m with
  | zero =>
      intro _
      have := add_le_lastChunkEnd hcs hdvd hcur
      omega
  | succ m ih =>
      intro hle
      have hm := ih (by omega)
      have hin : cur + m * cfg.chunkSize < fileSize := by
        by_cases hzero : m = 0
        · simp [hzero, hcur]
        · have hoff := hbefore m (by omega) (by omega)
          rwa [prefetchOffset, Nat.mod_eq_of_lt (by omega)] at hoff
      have hnext := add_le_lastChunkEnd hcs (Nat.dvd_add hdvd (Nat.dvd_mul_left _ m)) hin
      rw [Nat.succ_mul]
      omega

theorem prefetched_isChunk (hcs : 0 < cfg.chunkSize)
    (hend : lastChunkEnd cfg.chunkSize fileSize ≤ 2 ^ 64) {o n : Nat}
    (h : Prefetched cfg mount blob fileSize o n) :
    cfg.chunkSize ∣ o ∧ o < fileSize ∧ n = chunkLen cfg.chunkSize fileSize o := by
  obtain ⟨offset, length, h⟩ := h
  obtain ⟨-, -, hstop, h⟩ := fetchRange_spawns.mp h
  rcases h with h | h
  · obtain ⟨i, -, -, hbefore, hin, hj⟩ := prefetch_spawns.mp h
    cases hj
    refine ⟨?_, hin, rfl⟩
    have hdvd := currentChunk_dvd cfg (readEnd offset length fileSize)
    have hsum := Nat.dvd_add hdvd (Nat.dvd_mul_left cfg.chunkSize i)
    rcases Nat.lt_or_eq_of_le hend with hlt | heq
    · have hcur : currentChunk cfg (readEnd offset length fileSize) < fileSize :=
        currentChunk_lt (by omega) (Nat.min_le_right _ _)
      have hle := prefetch_no_wrap hcs hlt hdvd hcur hbefore i le_rfl
      rw [prefetchOffset, Nat.mod_eq_of_lt (by omega)]
      exact hsum
    · -- the chunks fill the whole range of `u64`, so wrapping keeps to the grid
      have hword : cfg.chunkSize ∣ 2 ^ 64 := by
        rw [← heq, lastChunkEnd]
        exact Nat.dvd_add (Nat.dvd_mul_left _ _) (dvd_refl _)
      exact (Nat.dvd_mod_iff hword).mpr hsum
  · obtain ⟨x, -, hj⟩ := List.mem_map.mp h
    cases hj

/-- With a whole last chunk that ends beyond `u64`, the read of the last byte
prefetches at an offset inside the first chunk. -/
theorem prefetched_off_grid (mount : MountConfig) (blob : String) (hcs : 0 < cfg.chunkSize)
    (hsize : cfg.chunkSize ≤ u64Max) (hpos : 0 < fileSize) (hmax : fileSize ≤ u64Max)
    (hdepth : cfg.prefetchDepth ≠ 0) (hend : 2 ^ 64 < lastChunkEnd cfg.chunkSize fileSize) :
    ∃ o n, Prefetched cfg mount blob fileSize o n ∧ 0 < o ∧ o < cfg.chunkSize := by
  have hread : readEnd (fileSize - 1) 1 fileSize = fileSize := by
    simp only [readEnd, saturatingAdd]
    omega
  have hlast := Nat.div_mul_le_self (fileSize - 1) cfg.chunkSize
  have hcur : currentChunk cfg fileSize + 1 * cfg.chunkSize =
      lastChunkEnd cfg.chunkSize fileSize := by
    rw [currentChunk, if_neg (by omega), Nat.one_mul, lastChunkEnd]
  have hoff : prefetchOffset cfg (currentChunk cfg fileSize) 1 =
      lastChunkEnd cfg.chunkSize fileSize - 2 ^ 64 := by
    rw [prefetchOffset, hcur, Nat.mod_eq_sub_mod (by omega), Nat.mod_eq_of_lt]
    simp only [u64Max] at hsize hmax
    rw [lastChunkEnd]
    omega
  have hsmall : lastChunkEnd cfg.chunkSize fileSize - 2 ^ 64 < cfg.chunkSize := by
    simp only [u64Max] at hmax
    rw [lastChunkEnd]
    omega
  have hsecond : cfg.chunkSize < fileSize := by
    by_cases hone : (fileSize - 1) / cfg.chunkSize = 0
    · simp only [u64Max] at hsize
      rw [lastChunkEnd, hone] at hend
      omega
    · have := Nat.le_mul_of_pos_left cfg.chunkSize (Nat.pos_of_ne_zero hone)
      omega
  have hin : prefetchOffset cfg (currentChunk cfg fileSize) 1 < fileSize := by
    rw [hoff]
    omega
  have hspawn : (fetchRange cfg mount blob (fileSize - 1) 1 fileSize).Spawns
      (Job.prefetchTask mount blob (prefetchOffset cfg (currentChunk cfg fileSize) 1)
        (chunkLen cfg.chunkSize fileSize
          (prefetchOffset cfg (currentChunk cfg fileSize) 1))) := by
    apply fetchRange_spawns.mpr
    rw [hread]
    refine ⟨Nat.one_ne_zero, by decide, by omega, .inl ?_⟩
    exact prefetch_spawns.mpr ⟨1, le_rfl, by omega, by omega, hin, rfl⟩
  refine ⟨_, _, ⟨_, _, hspawn⟩, ?_, ?_⟩
  · rw [hoff]
    omega
  · rw [hoff]
    exact hsmall

/-- Hydration, reads and prefetches agree on the chunks of a file unless
prefetching is on and the last chunk, taken whole, ends beyond `u64`. -/
theorem gridAgrees_iff (cfg : NodeConfig) (mount : MountConfig) (blob : String) (fileSize : Nat)
    (hcs : 1 ≤ cfg.chunkSize) (hsize : cfg.chunkSize ≤ u64Max) (hpos : 0 < fileSize)
    (hmax : fileSize ≤ u64Max) :
    GridAgrees cfg mount blob fileSize ↔
      cfg.prefetchDepth = 0 ∨ lastChunkEnd cfg.chunkSize fileSize ≤ 2 ^ 64 := by
  constructor
  · intro h
    by_contra hcond
    rw [not_or, Nat.not_le] at hcond
    obtain ⟨o, n, hpre, ho, hlt⟩ :=
      prefetched_off_grid mount blob hcs hsize hpos hmax hcond.1 hcond.2
    obtain ⟨hdvd, -, -⟩ := (isChunk_iff hcs).mp (h.prefetched o n hpre)
    exact absurd (Nat.le_of_dvd ho hdvd) (Nat.not_le.mpr hlt)
  · intro hcond
    have hprefetched : ∀ o n, Prefetched cfg mount blob fileSize o n →
        cfg.chunkSize ∣ o ∧ o < fileSize ∧ n = chunkLen cfg.chunkSize fileSize o := by
      intro o n h
      rcases hcond with hzero | hend
      · obtain ⟨offset, length, h⟩ := h
        obtain ⟨-, -, -, h⟩ := fetchRange_spawns.mp h
        rcases h with h | h
        · exact absurd hzero (maybeTriggerPrefetch_spawns.mp h).1
        · obtain ⟨x, -, hj⟩ := List.mem_map.mp h
          cases hj
      · exact prefetched_isChunk hcs hend h
    refine ⟨chunksFrom_disjoint _ _ _ _ _, blobChunks_cover hcs, ?_, ?_, ?_⟩
    · intro o n
      rw [isChunk_iff hcs, requested_iff hmax]
    · intro o n h
      exact (isChunk_iff hcs).mpr (hprefetched o n h)
    · intro o n n' d h hreq hd
      obtain ⟨-, -, rfl⟩ := (requested_iff hmax).mp hreq
      have hn : n = chunkLen cfg.chunkSize fileSize o := by
        rcases h with h | h
        · exact ((isChunk_iff hcs).mp h).2.2
        · exact (hprefetched o n h).2.2
      simp [ofLength, Option.filter, hd, hn]

theorem gridAgrees_of_sample :
    GridAgrees { sampleConfig with prefetchDepth := 4 } sampleMount "b" 10000 :=
  (gridAgrees_iff _ _ _ _ (by decide) (by decide) (by decide) (by decide)).mpr
    (.inr (by decide))

/-- Three pages make a chunk. -/
def threePages : NodeConfig :=
  { sampleConfig with chunkSize := 12288, prefetchDepth := 1, prefetchThreshold := 1 }

def wrapSchedule : List (Label (machine threePages)) :=
  [.start (.fetchRange sampleMount "b" (2 ^ 64 - 2) 1 (2 ^ 64 - 1))] ++ turns 0 5

/-- The read of the last byte of the largest file prefetches the 12288 bytes at
8192. -/
theorem prefetch_wraps_around :
    ∃ c : Config (machine threePages),
      Config.Reach (fun _ _ => True) (.init (State.new threePages)) c ∧
      c.job 0 = some (.fetchRange sampleMount "b" (2 ^ 64 - 2) 1 (2 ^ 64 - 1)) ∧
      c.job 1 = some (.prefetchTask sampleMount "b" 8192 12288) ∧
      ⟨"b", 8192, 12288⟩ ∉ blobChunks threePages.chunkSize "b" (2 ^ 64 - 1) := by
  obtain ⟨c, hrun, hc⟩ := Config.reach_of_labels (.init (State.new threePages)) wrapSchedule
    (fun c : Config (machine threePages) =>
      decide (c.job 0 = some (.fetchRange sampleMount "b" (2 ^ 64 - 2) 1 (2 ^ 64 - 1))) &&
        decide (c.job 1 = some (.prefetchTask sampleMount "b" 8192 12288)))
    (by decide +kernel)
  simp only [Bool.and_eq_true, decide_eq_true_eq] at hc
  refine ⟨c, hrun, hc.1, hc.2, ?_⟩
  intro hmem
  obtain ⟨hdvd, -⟩ := (isChunk_iff (by decide)).mp hmem
  exact absurd hdvd (by decide)

end BlobCache.Hydrate
