import BlobCache.Conc.Watch
import BlobCache.Data.Checked
import BlobCache.Node.Ranges

/-!
The arithmetic of reads and prefetches, with every operation on `u64` checked.
`fetchRangeChecked` and `maybeTriggerPrefetchChecked` are `fetch_range` and
`maybe_trigger_prefetch` as a build with overflow checks runs them: each does what its
unchecked program does, but fails where an operation leaves the range of `u64`. For
files of less than 2^63 bytes they are the unchecked programs: nothing fails, and
nothing wraps around either.
-/

namespace BlobCache.Node

open Cache Checked Conc

abbrev CheckedM := ExceptT Fault NodeM

variable (cfg : NodeConfig)

/-! ## The checked programs -/

/-- The locked part of `maybe_trigger_prefetch`. The difference is taken only when the
read starts at or after the end of the last one. -/
def trackReadChecked (f : FetchState) (mount blob : String)
    (reqOffset reqEnd chunkSize : Nat) : Except Fault ((Nat × Nat) × FetchState) := do
  let e := f.seqEntry mount blob
  let forward ← if e.lastEnd ≤ reqOffset then do
      let gap ← sub reqOffset e.lastEnd
      pure (decide (gap ≤ chunkSize))
    else pure false
  let consecutive := if forward then min (e.consecutive + 1) FetchState.u32Max else 1
  let next := { e with consecutive := consecutive, lastEnd := reqEnd }
  return ((consecutive, e.blobStreak),
    { f with seqState := f.seqState.insert (FetchState.seqKey mount blob) next })

def prefetchLoopChecked (mount : MountConfig) (blob : String) (curChunk fileSize : Nat) :
    List Nat → CheckedM Unit
  | [] => return ()
  | i :: rest => do
      let ahead ← mul i cfg.chunkSize
      let off ← add curChunk ahead
      if fileSize ≤ off then return ()
      else
        let left ← sub fileSize off
        let chunkLen := min cfg.chunkSize left
        let ck : ChunkKey := ⟨mount.name, blob, off⟩
        let cached : Option Nat ← disk (.entrySize ck)
        if cached.isSome then prefetchLoopChecked mount blob curChunk fileSize rest
        else
          let writing : Option Bytes ← fetch (.writesGet ck)
          if writing.isSome then prefetchLoopChecked mount blob curChunk fileSize rest
          else
            let inflight : Bool ← fetch (.inflightContains ck)
            if inflight then prefetchLoopChecked mount blob curChunk fileSize rest
            else
              let _ ← spawn (.prefetchTask mount blob off chunkLen)
              prefetchLoopChecked mount blob curChunk fileSize rest

def curChunkChecked (reqEnd : Nat) : CheckedM Nat :=
  if reqEnd = 0 then pure 0
  else do
    let last ← sub reqEnd 1
    alignDown last cfg.chunkSize

def maybeTriggerPrefetchChecked (mount : MountConfig) (blob : String)
    (reqOffset reqEnd fileSize : Nat) : CheckedM Unit := do
  if cfg.prefetchDepth = 0 then return ()
  else
    let streaks : Nat × Nat ← fetch (.trackRead mount.name blob reqOffset reqEnd cfg.chunkSize)
    if streaks.1 < max cfg.prefetchThreshold 1 then return ()
    else if cfg.prefetchOriginOnly ∧ streaks.2 = 0 then return ()
    else
      let curChunk ← curChunkChecked cfg reqEnd
      prefetchLoopChecked cfg mount blob curChunk fileSize
        ((List.range cfg.prefetchDepth).map (· + 1))

/-- The loop of `fetch_range`, for at most `turns` turns. -/
def chunkLoopChecked (mount : MountConfig) (blob : String) (offset stop fileSize lastChunk : Nat) :
    Nat → Nat → CheckedM (List (Handle effect))
  | 0, _ => throwThe Fault .unbounded
  | turns + 1, o => do
      if o ≤ lastChunk then
        let left ← sub fileSize o
        let chunkLen := min cfg.chunkSize left
        let takeStart ← sub (max offset o) o
        let chunkEnd ← add o chunkLen
        let takeEnd ← sub (min stop chunkEnd) o
        let subLen ← sub takeEnd takeStart
        let task ← spawn (.chunkTask mount blob o takeStart subLen chunkLen)
        match checkedAdd o cfg.chunkSize with
        | some n =>
            let tasks ← chunkLoopChecked mount blob offset stop fileSize lastChunk turns n
            return task :: tasks
        | none => return [task]
      else return []

def fetchRangeChecked (turns : Nat) (mount : MountConfig) (blob : String)
    (offset length fileSize : Nat) : CheckedM Fetched := do
  if length = 0 then return .ok []
  else if maxReadBytes < length then
    return .error (.other s!"read length {length} exceeds MAX_READ_BYTES {maxReadBytes}")
  else
    let stop := min (saturatingAdd offset length) fileSize
    if stop ≤ offset then return .ok []
    else
      let firstChunk ← alignDown offset cfg.chunkSize
      let last ← sub stop 1
      let lastChunk ← alignDown last cfg.chunkSize
      maybeTriggerPrefetchChecked cfg mount blob offset stop fileSize
      let tasks ← chunkLoopChecked cfg mount blob offset stop fileSize lastChunk turns firstChunk
      match ← (joinChunks tasks : NodeM _) with
      | .error e => return .error e
      | .ok chunks =>
          -- the capacity of the buffer the pieces are put together in
          if chunks.length ≠ 1 then
            let _ ← sub stop offset
            return .ok (assemble chunks)
          else return .ok (assemble chunks)

/-! ## They are the unchecked ones -/

variable {cfg}

theorem trackReadChecked_eq (f : FetchState) (mount blob : String)
    (reqOffset reqEnd chunkSize : Nat) :
    trackReadChecked f mount blob reqOffset reqEnd chunkSize =
      .ok (f.trackRead mount blob reqOffset reqEnd chunkSize) := by
  unfold trackReadChecked FetchState.trackRead
  by_cases hle : (f.seqEntry mount blob).lastEnd ≤ reqOffset
  · simp [sub_eq hle, hle]
    rfl
  · simp [hle]
    rfl

theorem lift_bind {α β : Type} {p : NodeM α} {f : α → CheckedM β} {g : α → NodeM β}
    (h : ∀ a, f a = liftM (g a)) : (liftM p >>= f : CheckedM β) = liftM (p >>= g) := by
  rw [funext h]
  exact (liftM_bind p g).symm

theorem lift_ite {α : Type} {c : Prop} [Decidable c] {x y : CheckedM α} {x' y' : NodeM α}
    (hx : c → x = liftM x') (hy : ¬ c → y = liftM y') :
    (if c then x else y) = liftM (if c then x' else y') := by
  split
  · exact hx ‹_›
  · exact hy ‹_›

/-- The first offset that the prefetch looks at is in range: the current chunk is the
first one, or as long as what is before it. -/
theorem add_chunkSize_le {a : Nat} (hcs : cfg.chunkSize ≤ u64Max) (ha : a < 2 ^ 63) :
    a / cfg.chunkSize * cfg.chunkSize + cfg.chunkSize ≤ u64Max := by
  have hle := Nat.div_mul_le_self a cfg.chunkSize
  unfold u64Max at *
  by_cases hzero : a / cfg.chunkSize = 0
  · rw [hzero, Nat.zero_mul]
    omega
  · have hone := Nat.mul_le_mul_right cfg.chunkSize (Nat.one_le_iff_ne_zero.mpr hzero)
    omega

/-- Each further offset is in range because the one before it is inside the file. -/
theorem prefetchLoopChecked_eq {mount : MountConfig} {blob : String} {cur fileSize i : Nat}
    (hi : 1 ≤ i) (hsize : fileSize < 2 ^ 63) (hfirst : cur + i * cfg.chunkSize ≤ u64Max)
    (depth : Nat) :
    prefetchLoopChecked cfg mount blob cur fileSize (List.range' i depth) =
      liftM (prefetchLoop cfg mount blob cur fileSize (List.range' i depth)) := by
  induction depth generalizing i with
  | zero => rfl
  | succ depth ih =>
      have hmul : i * cfg.chunkSize ≤ u64Max := by omega
      have hmod : (cur + i * cfg.chunkSize) % 2 ^ 64 = cur + i * cfg.chunkSize := by
        apply Nat.mod_eq_of_lt
        unfold u64Max at hfirst
        omega
      rw [List.range'_succ, prefetchLoopChecked, prefetchLoop, mul_eq hmul, pure_bind,
        add_eq hfirst, pure_bind]
      dsimp only
      rw [hmod]
      apply lift_ite
      · intro _
        rfl
      · intro hlt
        have hcs : cfg.chunkSize ≤ i * cfg.chunkSize := Nat.le_mul_of_pos_left _ hi
        have hnext := ih (i := i + 1) (by omega) (by
          rw [Nat.succ_mul]
          unfold u64Max
          omega)
        rw [sub_eq (by omega), pure_bind]
        apply lift_bind
        intro cached
        apply lift_ite (fun _ => hnext)
        intro _
        apply lift_bind
        intro writing
        apply lift_ite (fun _ => hnext)
        intro _
        apply lift_bind
        intro inflight
        apply lift_ite (fun _ => hnext)
        intro _
        exact lift_bind fun _ => hnext

theorem map_succ_range (n : Nat) : (List.range n).map (· + 1) = List.range' 1 n := by
  simp only [List.range_eq_range', Nat.add_comm _ 1]
  exact List.map_add_range' 0 n 1

theorem maybeTriggerPrefetchChecked_eq {mount : MountConfig} {blob : String}
    {reqOffset reqEnd fileSize : Nat} (hcs : 0 < cfg.chunkSize) (hmax : cfg.chunkSize ≤ u64Max)
    (hend : reqEnd ≤ fileSize) (hsize : fileSize < 2 ^ 63) :
    maybeTriggerPrefetchChecked cfg mount blob reqOffset reqEnd fileSize =
      liftM (maybeTriggerPrefetch cfg mount blob reqOffset reqEnd fileSize) := by
  have hcur : curChunkChecked cfg reqEnd =
      pure (if reqEnd = 0 then 0 else (reqEnd - 1) / cfg.chunkSize * cfg.chunkSize) := by
    unfold curChunkChecked
    split
    · rfl
    · rw [sub_eq (by omega), pure_bind, alignDown_eq hcs]
      unfold u64Max
      omega
  have hfirst : (if reqEnd = 0 then 0 else (reqEnd - 1) / cfg.chunkSize * cfg.chunkSize) +
      1 * cfg.chunkSize ≤ u64Max := by
    rw [Nat.one_mul]
    split
    · omega
    · exact add_chunkSize_le hmax (by omega)
  unfold maybeTriggerPrefetchChecked maybeTriggerPrefetch
  apply lift_ite
  · intro _
    rfl
  · intro _
    apply lift_bind
    intro streaks
    apply lift_ite
    · intro _
      rfl
    · intro _
      apply lift_ite
      · intro _
        rfl
      · intro _
        dsimp only
        rw [hcur, pure_bind, map_succ_range]
        exact prefetchLoopChecked_eq le_rfl hsize hfirst _

/-- What the loop of `fetch_range` computes for the chunk at `o`. -/
theorem chunkLoopChecked_succ {mount : MountConfig} {blob : String}
    {offset stop fileSize last turns o : Nat} (ho : o ≤ last) (hlast : last < stop)
    (hoffset : offset < stop) (hnear : offset ≤ o + cfg.chunkSize) (hstop : stop ≤ fileSize)
    (hsize : fileSize < 2 ^ 63) :
    chunkLoopChecked cfg mount blob offset stop fileSize last (turns + 1) o = (do
      let task ← spawn (chunkTaskAt cfg mount blob offset stop fileSize o)
      match checkedAdd o cfg.chunkSize with
      | some n =>
          let tasks ← chunkLoopChecked cfg mount blob offset stop fileSize last turns n
          return task :: tasks
      | none => return [task]) := by
  have hend : o + min cfg.chunkSize (fileSize - o) ≤ u64Max := by
    unfold u64Max
    omega
  rw [chunkLoopChecked, if_pos ho, sub_eq (by omega), pure_bind, sub_eq (by omega), pure_bind,
    add_eq hend, pure_bind, sub_eq (by omega), pure_bind, sub_eq (by omega), pure_bind]
  rfl

/-- The loop ends after one turn for each chunk and one more to see that it is done. -/
theorem chunkLoopChecked_eq {mount : MountConfig} {blob : String}
    {offset stop fileSize last : Nat} (hlast : last < stop) (hoffset : offset < stop)
    (hstop : stop ≤ fileSize) (hsize : fileSize < 2 ^ 63) {n turns o : Nat} (hturns : n < turns)
    (hn : o + n * cfg.chunkSize = last + cfg.chunkSize) (hcs : 0 < cfg.chunkSize)
    (hnear : offset ≤ o + cfg.chunkSize) :
    chunkLoopChecked cfg mount blob offset stop fileSize last turns o =
      liftM (spawnAll ((chunkOffsets cfg.chunkSize last n o).map
        (chunkTaskAt cfg mount blob offset stop fileSize))) := by
  induction n generalizing turns o with
  | zero =>
      obtain ⟨turns, rfl⟩ := Nat.exists_eq_succ_of_ne_zero (Nat.ne_of_gt hturns)
      rw [chunkLoopChecked, if_neg (by omega)]
      rfl
  | succ n ih =>
      obtain ⟨turns, rfl⟩ := Nat.exists_eq_succ_of_ne_zero (Nat.ne_of_gt (Nat.zero_lt_of_lt hturns))
      rw [Nat.succ_mul] at hn
      have ho : o ≤ last := by omega
      rw [chunkLoopChecked_succ ho hlast hoffset hnear hstop hsize, chunkOffsets, if_pos ho,
        List.map_cons, spawnAll]
      apply lift_bind
      intro task
      cases hnext : checkedAdd o cfg.chunkSize with
      | none => rfl
      | some next =>
          have hstep := checkedAdd_eq hnext
          dsimp only
          rw [ih (by omega) (by omega) (by omega)]
          exact lift_bind fun _ => rfl

/-- `fetch_range` with checks is `fetch_range`: nothing fails, and the loop ends when it
is given a turn for each chunk of the file and one more. -/
theorem fetchRangeChecked_eq {mount : MountConfig} {blob : String} {offset length fileSize : Nat}
    (hcs : 0 < cfg.chunkSize) (hmax : cfg.chunkSize ≤ u64Max) (hsize : fileSize < 2 ^ 63)
    {turns : Nat} (hturns : fileSize / cfg.chunkSize + 1 < turns) :
    fetchRangeChecked cfg turns mount blob offset length fileSize =
      liftM (fetchRange cfg mount blob offset length fileSize) := by
  unfold fetchRangeChecked fetchRange
  apply lift_ite
  · intro _
    rfl
  intro _
  apply lift_ite
  · intro _
    rfl
  intro _
  dsimp only
  have hstop : min (saturatingAdd offset length) fileSize ≤ fileSize := Nat.min_le_right _ _
  generalize min (saturatingAdd offset length) fileSize = stop at hstop ⊢
  apply lift_ite
  · intro _
    rfl
  intro hlt
  have hbound : fileSize ≤ u64Max := by
    unfold u64Max
    omega
  have hlast := Nat.div_mul_le_self (stop - 1) cfg.chunkSize
  have hfirst := Nat.div_mul_le_self offset cfg.chunkSize
  have hnear := @Nat.lt_div_mul_add offset _ hcs
  have hdiv : offset / cfg.chunkSize ≤ (stop - 1) / cfg.chunkSize :=
    Nat.div_le_div_right (by omega)
  have hchunks : (stop - 1) / cfg.chunkSize ≤ fileSize / cfg.chunkSize :=
    Nat.div_le_div_right (by omega)
  have hcount : ((stop - 1) / cfg.chunkSize * cfg.chunkSize -
      offset / cfg.chunkSize * cfg.chunkSize) / cfg.chunkSize + 1 =
        (stop - 1) / cfg.chunkSize - offset / cfg.chunkSize + 1 := by
    rw [← Nat.sub_mul, Nat.mul_div_cancel _ hcs]
  have hspan : offset / cfg.chunkSize * cfg.chunkSize +
      ((stop - 1) / cfg.chunkSize - offset / cfg.chunkSize + 1) * cfg.chunkSize =
        (stop - 1) / cfg.chunkSize * cfg.chunkSize + cfg.chunkSize := by
    rw [Nat.succ_mul, ← Nat.add_assoc, ← Nat.add_mul, Nat.add_sub_cancel' hdiv]
  have hleft := Nat.sub_le ((stop - 1) / cfg.chunkSize) (offset / cfg.chunkSize)
  have henough : (stop - 1) / cfg.chunkSize - offset / cfg.chunkSize + 1 < turns :=
    (Nat.succ_le_succ (hleft.trans hchunks)).trans_lt hturns
  rw [alignDown_eq hcs (by omega), pure_bind, sub_eq (by omega), pure_bind,
    alignDown_eq hcs (by omega), pure_bind, maybeTriggerPrefetchChecked_eq hcs hmax hstop hsize]
  apply lift_bind
  intro _
  rw [chunkLoopChecked_eq (by omega) (by omega) hstop hsize henough hspan hcs (by omega),
    rangeOffsets, hcount]
  apply lift_bind
  intro tasks
  apply lift_bind
  intro joined
  cases joined with
  | error e => rfl
  | ok chunks =>
      dsimp only
      rw [sub_eq (by omega), pure_bind]
      split <;> rfl

end BlobCache.Node
