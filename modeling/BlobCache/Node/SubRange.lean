import BlobCache.Node.Sequential

/-!
Two ways to read a part of a chunk: `fetch_chunk_range`, and `fetch_chunk` with
the part cut out afterwards. Both look at the writes in flight, the peer LRU and
the disk, in that order. `fetch_chunk` takes only a copy of the expected length and
removes another one from the disk; `fetch_chunk_range` takes what covers the part
from the writes in flight and from the disk, whatever its length. The two agree,
whatever the origin and the peers answer, if and only if the copies do.
-/

namespace BlobCache.Node

open Cache Conc

/-! ## One caller -/

/-- The node as one caller sees it. What the leader of a slot broadcasts is fixed in
advance, like the replies of the origin and of the peers: a slot in the map has sent
nothing, so that a follower always waits for it. -/
def foretold (cfg : NodeConfig) (answer : Nat → Received) : Machine effect :=
  { machine cfg with
    exec := fun t o c s =>
      match o with
      | .fetch (.recv slot _) => some (answer slot, s)
      | o => exec cfg t o c s }

/-- A call that runs by itself, with the closures it awaits. -/
def callAlone (cfg : NodeConfig) (answer : Nat → Received) (env : Op → Choice) (t : Nat)
    (j : Job) (s : State) : Option (Val × State) :=
  Program.evalJob (foretold cfg answer) env t 1 j s

section Rules

variable {cfg : NodeConfig} {answer : Nat → Received} {env : Op → Choice} {t : Nat}
  {child : Job → State → Option (Val × State)} {s : State} {α : Type}

theorem foretold_disk_bind {o : DiskOp} {f : o.Resp → NodeM α} {R : α → State → Prop}
    (hf : ∀ r d, s.disk.exec cfg.disk t (env (.disk o)).disk o = (r, d) →
      (f r).Yields (foretold cfg answer) env t child { s with disk := d } R) :
    (disk o >>= f).Yields (foretold cfg answer) env t child s R :=
  .perform_bind rfl (hf _ _ rfl)

/-- Whichever part the caller gets, it goes on. -/
theorem foretold_entry_bind {key : ChunkKey} {f : Role → NodeM α} {R : α → State → Prop}
    (hf : ∀ role s', (f role).Yields (foretold cfg answer) env t child s' R) :
    (fetch (.inflightEntry key) >>= f).Yields (foretold cfg answer) env t child s R :=
  .perform_bind rfl (hf _ _)

theorem foretold_recv_bind {slot : Nat} {timed : Bool} {f : Received → NodeM α}
    {R : α → State → Prop}
    (hf : (f (answer slot)).Yields (foretold cfg answer) env t child s R) :
    (fetch (.recv slot timed) >>= f).Yields (foretold cfg answer) env t child s R :=
  .perform_bind rfl hf

end Rules

/-! ## The copies of a chunk -/

/-- The copy that `try_get` reads. -/
def fileCopy (cfg : NodeConfig) (fs : Op → DiskChoice) (s : State) (key : ChunkKey) :
    Option Bytes :=
  if (s.disk.inner.entries.get? key).isSome then
    (s.disk.openFile cfg.disk key (fs (.disk (.openFile key)))).bind fun fd =>
      s.disk.readToEnd fd (fs (.disk (.readToEnd fd)))
  else none

/-- The part that `try_get_range` reads. -/
def fileRange (cfg : NodeConfig) (fs : Op → DiskChoice) (s : State) (key : ChunkKey)
    (subOffset subLen : Nat) : Option Bytes :=
  (s.disk.inner.entries.get? key).bind fun e =>
    if e.size < saturatingAdd subOffset subLen then none
    else
      (s.disk.openFile cfg.disk key (fs (.disk (.openFile key)))).bind fun fd =>
        s.disk.readExactAt fd subOffset subLen (fs (.disk (.readExactAt fd subOffset subLen)))

/-- The first copy of the expected length. -/
def fullCopy (cfg : NodeConfig) (fs : Op → DiskChoice) (s : State) (key : ChunkKey)
    (expectedLen : Nat) : Option Bytes :=
  (ofLength expectedLen (s.fetch.inflightWrites.get? key)).or
    ((ofLength expectedLen (s.fetch.lruGet key).1).or
      (ofLength expectedLen (fileCopy cfg fs s key)))

/-- The part in the first copy that covers it; the LRU copy also has to have the
expected length. -/
def rangeCopy (cfg : NodeConfig) (fs : Op → DiskChoice) (s : State) (key : ChunkKey)
    (subOffset subLen expectedChunkLen : Nat) : Option Bytes :=
  ((s.fetch.inflightWrites.get? key).bind (subSlice · subOffset subLen)).or
    (((ofLength expectedChunkLen (s.fetch.lruGet key).1).bind (subSlice · subOffset subLen)).or
      (fileRange cfg fs s key subOffset subLen))

section Reads

variable {cfg : NodeConfig} {answer : Nat → Received} {env : Op → Choice} {t : Nat}
  {child : Job → State → Option (Val × State)} {s : State} {fs : Op → DiskChoice}

/-- The state after a change of the miss counter. -/
def withMisses (s : State) (misses : Nat) : State :=
  { s with disk := { s.disk with stats := { s.disk.stats with misses := misses } } }

theorem touchLru_of_tracked {d : Disk} {key : ChunkKey} {r : Bool} {d' : Disk}
    (htracked : (d.inner.entries.get? key).isSome) (h : d.touchLru key = (r, d')) : r = true := by
  obtain ⟨e, he⟩ := Option.isSome_iff_exists.mp htracked
  simp only [Disk.touchLru, Inner.touchLru, he, Prod.mk.injEq] at h
  exact h.1.symm

/-- A miss is counted, and nothing else changes. -/
theorem miss_reads (a : Option Bytes) :
    (do
      disk .countMiss
      return a : NodeM (Option Bytes)).Yields (foretold cfg answer) env t child s fun r s' =>
        r = a ∧ ∃ misses, s' = withMisses s misses := by
  refine foretold_disk_bind fun _ d hexec => ?_
  cases hexec
  exact .pure ⟨rfl, _, rfl⟩

/-- A hit on a tracked entry is counted. -/
theorem hit_reads {key : ChunkKey} (htracked : (s.disk.inner.entries.get? key).isSome)
    (data : Bytes) :
    (do
      let touched : Bool ← disk (.touchLru key)
      if !touched then return none
      else
        disk .countHit
        return some data : NodeM (Option Bytes)).Yields (foretold cfg answer) env t child s
          fun r s' => r = some data ∧ s'.fetch = s.fetch := by
  refine foretold_disk_bind fun touched d₁ hexec => ?_
  have htouched := touchLru_of_tracked htracked hexec
  subst htouched
  refine foretold_disk_bind fun _ d₂ hexec => ?_
  cases hexec
  exact .pure ⟨rfl, rfl⟩

theorem open_bind (hfs : ∀ o, (env o).disk = fs o) {key : ChunkKey}
    {f : Option Nat → NodeM (Option Bytes)} {R : Option Bytes → State → Prop}
    (hf : (f (s.disk.openFile cfg.disk key (fs (.disk (.openFile key))))).Yields
      (foretold cfg answer) env t child s R) :
    (disk (.openFile key) >>= f).Yields (foretold cfg answer) env t child s R := by
  refine foretold_disk_bind fun opened d hexec => ?_
  rw [hfs] at hexec
  obtain ⟨rfl, rfl⟩ := Prod.mk.inj hexec
  exact hf

theorem tryGet_reads (hfs : ∀ o, (env o).disk = fs o) (key : ChunkKey) :
    (tryGet key).Yields (foretold cfg answer) env t child s fun r s' =>
      r = fileCopy cfg fs s key ∧ s'.fetch = s.fetch := by
  have hmiss (hnone : fileCopy cfg fs s key = none) :
      (do
        disk .countMiss
        return none : NodeM (Option Bytes)).Yields (foretold cfg answer) env t child s
          fun r s' => r = fileCopy cfg fs s key ∧ s'.fetch = s.fetch := by
    apply (miss_reads none).mono
    rintro r _ ⟨rfl, misses, rfl⟩
    exact ⟨hnone.symm, rfl⟩
  refine foretold_disk_bind fun tracked d₁ hexec => ?_
  cases hexec
  by_cases htracked : (s.disk.inner.entries.get? key).isSome
  · rw [htracked]
    apply open_bind hfs
    cases hopen : s.disk.openFile cfg.disk key (fs (.disk (.openFile key))) with
    | none =>
        apply hmiss
        simp [fileCopy, hopen]
    | some fd =>
        refine foretold_disk_bind fun data d₃ hexec => ?_
        rw [hfs] at hexec
        obtain ⟨hread, rfl⟩ := Prod.mk.inj hexec
        change s.disk.readToEnd fd (fs (.disk (.readToEnd fd))) = data at hread
        have hcopy : fileCopy cfg fs s key = data := by
          unfold fileCopy
          rw [if_pos htracked, hopen]
          exact hread
        cases data with
        | none => exact hmiss hcopy
        | some data =>
            apply (hit_reads htracked data).mono
            rintro r s' ⟨rfl, hfetch⟩
            exact ⟨hcopy.symm, hfetch⟩
  · rw [Bool.not_eq_true] at htracked
    rw [htracked]
    apply hmiss
    simp [fileCopy, htracked]

/-- A hit is the part of the file; a miss only counts. -/
theorem readRange_reads (hfs : ∀ o, (env o).disk = fs o) {key : ChunkKey} {offset len : Nat}
    (htracked : (s.disk.inner.entries.get? key).isSome) :
    (readRange key offset len).Yields (foretold cfg answer) env t child s fun r s' =>
      r = ((s.disk.openFile cfg.disk key (fs (.disk (.openFile key)))).bind fun fd =>
        s.disk.readExactAt fd offset len (fs (.disk (.readExactAt fd offset len)))) ∧
      (r = none → ∃ misses, s' = withMisses s misses) := by
  apply open_bind hfs
  cases s.disk.openFile cfg.disk key (fs (.disk (.openFile key))) with
  | none =>
      apply (miss_reads none).mono
      rintro r s' ⟨rfl, hmisses⟩
      exact ⟨rfl, fun _ => hmisses⟩
  | some fd =>
      refine foretold_disk_bind fun buf d₂ hexec => ?_
      rw [hfs] at hexec
      obtain ⟨hread, rfl⟩ := Prod.mk.inj hexec
      change s.disk.readExactAt fd offset len (fs (.disk (.readExactAt fd offset len))) = buf
        at hread
      cases buf with
      | none =>
          apply (miss_reads none).mono
          rintro r s' ⟨rfl, hmisses⟩
          exact ⟨hread.symm, fun _ => hmisses⟩
      | some buf =>
          apply (hit_reads htracked buf).mono
          rintro r s' ⟨rfl, -⟩
          exact ⟨hread.symm, fun hnone => by cases hnone⟩

theorem tryGetRange_reads (hfs : ∀ o, (env o).disk = fs o) (key : ChunkKey)
    {subOffset subLen : Nat} (hlen : subLen ≠ 0) :
    (tryGetRange key subOffset subLen).Yields (foretold cfg answer) env t child s fun r s' =>
      r = fileRange cfg fs s key subOffset subLen ∧
        (r = none → ∃ misses, s' = withMisses s misses) := by
  unfold tryGetRange
  rw [if_neg hlen]
  refine foretold_disk_bind fun size d₁ hexec => ?_
  obtain ⟨hsize, rfl⟩ := Prod.mk.inj hexec
  change (s.disk.inner.entries.get? key).map Entry.size = size at hsize
  cases hentry : s.disk.inner.entries.get? key with
  | none =>
      rw [hentry] at hsize
      subst hsize
      apply (miss_reads none).mono
      rintro r s' ⟨rfl, hmisses⟩
      simp only [fileRange, hentry]
      exact ⟨rfl, fun _ => hmisses⟩
  | some e =>
      rw [hentry] at hsize
      subst hsize
      have htracked : (s.disk.inner.entries.get? key).isSome := by rw [hentry]; rfl
      dsimp only [Option.map_some]
      split
      · rename_i hshort
        have hrange : fileRange cfg fs s key subOffset subLen = none := by
          simp only [fileRange, hentry, Option.bind_some, if_pos hshort]
        apply (miss_reads none).mono
        rintro r s' ⟨rfl, hmisses⟩
        exact ⟨hrange.symm, fun _ => hmisses⟩
      · rename_i hcovered
        apply (readRange_reads hfs htracked).mono
        intro r s' hread
        simp only [fileRange, hentry, Option.bind_some, if_neg hcovered]
        exact hread

/-- A copy of another length is removed, and none is reported. -/
theorem cacheHit_reads (hfs : ∀ o, (env o).disk = fs o) (key : ChunkKey) (expectedLen : Nat) :
    (cacheHit key expectedLen).Yields (foretold cfg answer) env t
      (Program.evalJob (foretold cfg answer) env t 0) s fun r s' =>
        r = .ok (ofLength expectedLen (fileCopy cfg fs s key)) ∧ s'.fetch = s.fetch := by
  apply Program.Yields.call_bind
    (Q := fun (v : Val) (s' : State) => v = .cached (fileCopy cfg fs s key) ∧ s'.fetch = s.fetch)
  · apply (tryGet_reads hfs key).bind
    rintro r s₁ ⟨rfl, hfetch⟩
    exact .pure ⟨rfl, hfetch⟩
  · rintro v s₁ ⟨rfl, hfetch⟩
    cases hcopy : fileCopy cfg fs s key with
    | none => exact .pure ⟨rfl, hfetch⟩
    | some b =>
        dsimp only
        split
        · rename_i hlen
          have hhit : ofLength expectedLen (some b) = some b := by simp [ofLength, hlen]
          rw [hhit]
          exact .pure ⟨rfl, hfetch⟩
        · rename_i hlen
          have hmiss : ofLength expectedLen (some b) = none := by simp [ofLength, hlen]
          rw [hmiss]
          apply Program.Yields.call_bind (Q := fun _ (s' : State) => s'.fetch = s₁.fetch)
          · refine foretold_disk_bind fun _ d₂ _ => ?_
            refine foretold_disk_bind fun _ d₃ _ => ?_
            exact .pure rfl
          · intro v s₂ hremove
            exact .pure ⟨rfl, hremove.trans hfetch⟩

end Reads

/-! ## The whole chunk -/

section Whole

variable {cfg : NodeConfig} {answer : Nat → Received} {env : Op → Choice} {t : Nat}
  {child : Job → State → Option (Val × State)} {s : State} {fs : Op → DiskChoice}
  {mount : MountConfig} {blob : String} {offset expectedLen : Nat}

/-- The state after a look at the peer LRU. -/
def promoted (s : State) (key : ChunkKey) : State :=
  { s with fetch := (s.fetch.lruGet key).2 }

/-- What `fetch_chunk` does after the two copies in memory. -/
def afterMemory (cfg : NodeConfig) (mount : MountConfig) (blob : String) (key : ChunkKey)
    (expectedLen : Nat) : NodeM Fetched := do
  match ← cacheHit key expectedLen with
  | .error e => return .error e
  | .ok (some b) => return .ok b
  | .ok none =>
      match ← fetch (.inflightEntry key) with
      | .follower slot => followLeader key slot expectedLen
      | .leader => leadFetch cfg mount blob key expectedLen false

/-- What `fetch_chunk` does after `inflight_writes`. -/
def afterWrites (cfg : NodeConfig) (mount : MountConfig) (blob : String) (key : ChunkKey)
    (expectedLen : Nat) : NodeM Fetched := do
  match ← peerLruHit key expectedLen with
  | some bytes => return .ok bytes
  | none => afterMemory cfg mount blob key expectedLen

theorem fetchChunk_eval :
    (fetchChunk cfg mount blob offset expectedLen).evalWith (foretold cfg answer) env t child s =
      Program.evalWith (foretold cfg answer) env t child
        (match ofLength expectedLen
            (s.fetch.inflightWrites.get? ⟨mount.name, blob, offset⟩) with
          | some b => return .ok b
          | none => afterWrites cfg mount blob ⟨mount.name, blob, offset⟩ expectedLen) s := rfl

theorem afterWrites_eval {key : ChunkKey} :
    (afterWrites cfg mount blob key expectedLen).evalWith (foretold cfg answer) env t child s =
      Program.evalWith (foretold cfg answer) env t child
        (match ofLength expectedLen (s.fetch.lruGet key).1 with
          | some b => return .ok b
          | none => afterMemory cfg mount blob key expectedLen) (promoted s key) := rfl

theorem fetchChunk_of_writes {b : Bytes}
    (hwrites : ofLength expectedLen
      (s.fetch.inflightWrites.get? ⟨mount.name, blob, offset⟩) = some b) :
    (fetchChunk cfg mount blob offset expectedLen).evalWith (foretold cfg answer) env t child s =
      some (.ok b, s) := by
  rw [fetchChunk_eval, hwrites]
  rfl

theorem fetchChunk_of_lru {b : Bytes}
    (hwrites : ofLength expectedLen
      (s.fetch.inflightWrites.get? ⟨mount.name, blob, offset⟩) = none)
    (hlru : ofLength expectedLen (s.fetch.lruGet ⟨mount.name, blob, offset⟩).1 = some b) :
    (fetchChunk cfg mount blob offset expectedLen).evalWith (foretold cfg answer) env t child s =
      some (.ok b, promoted s ⟨mount.name, blob, offset⟩) := by
  rw [fetchChunk_eval, hwrites]
  dsimp only
  rw [afterWrites_eval, hlru]
  rfl

theorem fetchChunk_of_miss
    (hwrites : ofLength expectedLen
      (s.fetch.inflightWrites.get? ⟨mount.name, blob, offset⟩) = none)
    (hlru : ofLength expectedLen (s.fetch.lruGet ⟨mount.name, blob, offset⟩).1 = none) :
    (fetchChunk cfg mount blob offset expectedLen).evalWith (foretold cfg answer) env t child s =
      (afterMemory cfg mount blob ⟨mount.name, blob, offset⟩ expectedLen).evalWith
        (foretold cfg answer) env t child (promoted s ⟨mount.name, blob, offset⟩) := by
  rw [fetchChunk_eval, hwrites]
  dsimp only
  rw [afterWrites_eval, hlru]

theorem fetchChunk_of_copy (hfs : ∀ o, (env o).disk = fs o) {full : Bytes}
    (hcopy : fullCopy cfg fs s ⟨mount.name, blob, offset⟩ expectedLen = some full) :
    (fetchChunk cfg mount blob offset expectedLen).Yields (foretold cfg answer) env t
      (Program.evalJob (foretold cfg answer) env t 0) s fun r _ => r = .ok full := by
  unfold fullCopy at hcopy
  cases hwrites : ofLength expectedLen
      (s.fetch.inflightWrites.get? ⟨mount.name, blob, offset⟩) with
  | some b =>
      rw [hwrites] at hcopy
      cases hcopy
      exact ⟨_, _, fetchChunk_of_writes hwrites, rfl⟩
  | none =>
      rw [hwrites, Option.none_or] at hcopy
      cases hlru : ofLength expectedLen (s.fetch.lruGet ⟨mount.name, blob, offset⟩).1 with
      | some b =>
          rw [hlru] at hcopy
          cases hcopy
          exact ⟨_, _, fetchChunk_of_lru hwrites hlru, rfl⟩
      | none =>
          rw [hlru, Option.none_or] at hcopy
          obtain ⟨r, s', heval, hr⟩ : (afterMemory cfg mount blob ⟨mount.name, blob, offset⟩
              expectedLen).Yields (foretold cfg answer) env t
              (Program.evalJob (foretold cfg answer) env t 0)
              (promoted s ⟨mount.name, blob, offset⟩) fun r _ => r = .ok full := by
            apply (cacheHit_reads hfs ⟨mount.name, blob, offset⟩ expectedLen).bind
            rintro r s₁ ⟨rfl, -⟩
            change ofLength expectedLen (fileCopy cfg fs
              (promoted s ⟨mount.name, blob, offset⟩) ⟨mount.name, blob, offset⟩) = _ at hcopy
            rw [hcopy]
            exact .pure rfl
          exact ⟨r, s', (fetchChunk_of_miss hwrites hlru).trans heval, hr⟩

/-- The origin and whoever else fetches the chunk deliver `data`; there are no
peers. -/
def delivering (fs : Op → DiskChoice) (data : Bytes) : Op → Choice :=
  fun o => ⟨fs o, ⟨.error (.notFound ""), .ok data, false, []⟩⟩

theorem askPeers_alone (data : Bytes) (key : ChunkKey) :
    (askPeers cfg key expectedLen).Yields (foretold cfg answer) (delivering fs data) t child s
      fun r _ => r = none := by
  apply Program.Yields.perform_bind rfl
  apply Program.Yields.perform_bind rfl
  apply Program.Yields.bind (Q := fun (r : Option Bytes) _ => r = none)
  · exact .pure rfl
  · rintro r s₁ rfl
    have hstampede (yesCount : Nat) :
        askStampedeLeader cfg key expectedLen yesCount [] = pure none :=
      if_neg fun h => h.2.2 rfl
    change (askStampedeLeader cfg key expectedLen _ []).Yields _ _ _ _ _ _
    rw [hstampede]
    exact .pure rfl

theorem leadFetch_delivers {data : Bytes} (hdata : data.length = expectedLen) (key : ChunkKey) :
    (leadFetch cfg mount blob key expectedLen false).Yields (foretold cfg answer)
      (delivering fs data) t child s fun r _ => r = .ok data := by
  apply Program.Yields.bind (Q := fun (r : Fetched) _ => r = .ok data)
  · apply (askPeers_alone data key).bind
    rintro r s₁ rfl
    apply Program.Yields.perform_bind rfl
    apply Program.Yields.perform_bind rfl
    change Program.Yields _ _ _ _ (if data.length ≠ expectedLen then _ else _) _ _
    rw [if_neg (not_not.mpr hdata)]
    apply Program.Yields.perform_bind rfl
    apply Program.Yields.perform_bind rfl
    exact .pure rfl
  · rintro r s₁ rfl
    apply Program.Yields.perform_bind rfl
    exact .pure rfl

/-- A caller that finds no copy gets what the origin, or the leader that it follows,
delivers. -/
theorem afterMemory_delivers (mount : MountConfig) (blob : String) {data : Bytes}
    (hdata : data.length = expectedLen) {key : ChunkKey}
    (hmiss : ofLength expectedLen (fileCopy cfg fs s key) = none) :
    (afterMemory cfg mount blob key expectedLen).Yields (foretold cfg fun _ => .message (.ok data))
      (delivering fs data) t
      (Program.evalJob (foretold cfg fun _ => .message (.ok data)) (delivering fs data) t 0) s
      fun r _ => r = .ok data := by
  have hfs : ∀ o, (delivering fs data o).disk = fs o := fun _ => rfl
  apply (cacheHit_reads hfs key expectedLen).bind
  rintro r s₁ ⟨rfl, -⟩
  rw [hmiss]
  refine foretold_entry_bind fun role s₂ => ?_
  cases role with
  | leader => exact leadFetch_delivers hdata key
  | follower slot =>
      apply foretold_recv_bind
      dsimp only
      rw [if_neg (not_not.mpr hdata)]
      exact .pure rfl

/-- Without a copy, what `fetch_chunk` returns is up to the origin and the leader. -/
theorem fetchChunk_delivers {data : Bytes} (hdata : data.length = expectedLen)
    (hcopy : fullCopy cfg fs s ⟨mount.name, blob, offset⟩ expectedLen = none) :
    (fetchChunk cfg mount blob offset expectedLen).Yields
      (foretold cfg fun _ => .message (.ok data)) (delivering fs data) t
      (Program.evalJob (foretold cfg fun _ => .message (.ok data)) (delivering fs data) t 0) s
      fun r _ => r = .ok data := by
  simp only [fullCopy, Option.or_eq_none_iff] at hcopy
  obtain ⟨hwrites, hlru, hfile⟩ := hcopy
  obtain ⟨r, s', heval, hr⟩ := afterMemory_delivers (t := t) mount blob hdata
    (s := promoted s ⟨mount.name, blob, offset⟩) hfile
  exact ⟨r, s', (fetchChunk_of_miss hwrites hlru).trans heval, hr⟩

end Whole

/-! ## What a fetch can return -/

section Lengths

variable {cfg : NodeConfig} {mount : MountConfig} {blob : String} {key : ChunkKey}
  {expectedLen : Nat}

theorem cacheHit_length {b : Bytes} (h : (cacheHit key expectedLen).Returns (.ok (some b))) :
    b.length = expectedLen := by
  obtain ⟨v, -, hv⟩ := h.of_bind
  split at hv
  · split at hv
    · rename_i hlen
      cases hv
      exact hlen
    · obtain ⟨_, -, hnone⟩ := hv.of_bind
      cases hnone
  · cases hv
  · cases hv

theorem followLeader_length {slot : Nat} {b : Bytes}
    (h : (followLeader key slot expectedLen).Returns (.ok b)) : b.length = expectedLen := by
  obtain ⟨r, -, hr⟩ := h.of_bind
  split at hr
  · split at hr
    · cases hr
    · rename_i hlen
      cases hr
      exact not_not.mp hlen
  · cases hr
  · obtain ⟨v, -, hv⟩ := hr.of_bind
    split at hv
    · split at hv
      · rename_i hlen
        cases hv
        exact hlen
      · cases hv
    · cases hv

theorem fetchBlobDirect_length {b : Bytes}
    (h : (fetchBlobDirect cfg mount blob key expectedLen).Returns (.ok b)) :
    b.length = expectedLen := by
  obtain ⟨_, -, h⟩ := h.of_bind
  obtain ⟨reply, -, h⟩ := h.of_bind
  split at h
  · cases h
  · split at h
    · cases h
    · rename_i hlen
      obtain ⟨_, -, h⟩ := h.of_bind
      obtain ⟨_, -, h⟩ := h.of_bind
      cases h
      exact not_not.mp hlen

theorem askPeer_length {peer : NodeInfo} {addr : Option Bytes} {wasYes : Bool} {waitMs : Nat}
    {b : Bytes} (h : (askPeer cfg peer addr key expectedLen wasYes waitMs).Returns (some b)) :
    b.length = expectedLen := by
  obtain ⟨reply, -, h⟩ := h.of_bind
  cases reply with
  | ok data =>
      dsimp only at h
      split at h
      · cases h
      · rename_i hlen
        have hnoted : (do
            fetch (.noteFetchOrigin key.mount key.blob false)
            return some data : NodeM (Option Bytes)).Returns (some b) := by
          split at h
          · exact h.of_bind.choose_spec.2
          · exact h.of_bind.choose_spec.2
        obtain ⟨_, -, hdata⟩ := hnoted.of_bind
        cases hdata
        exact not_not.mp hlen
  | error e =>
      cases e with
      | notFound msg =>
          dsimp only at h
          split at h
          · obtain ⟨_, -, h⟩ := h.of_bind
            cases h
          · cases h
      | _ => cases h

theorem tryPeerFetch_length {peer : NodeInfo} {wasYes : Bool} {waitMs : Nat} {b : Bytes}
    (h : (tryPeerFetch cfg peer key expectedLen wasYes waitMs).Returns (some b)) :
    b.length = expectedLen := by
  unfold tryPeerFetch at h
  split at h
  · split at h
    · cases h
    · exact askPeer_length h
  · split at h
    · cases h
    · exact askPeer_length h

theorem tryPeers_length {peers : List (NodeInfo × Bool)} {b : Bytes}
    (h : (tryPeers cfg key expectedLen peers).Returns (some b)) : b.length = expectedLen := by
  induction peers with
  | nil => cases h
  | cons peer peers ih =>
      obtain ⟨r, hr, h⟩ := h.of_bind
      split at h
      · cases h
        exact tryPeerFetch_length hr
      · exact ih h

theorem askPeers_length {b : Bytes} (h : (askPeers cfg key expectedLen).Returns (some b)) :
    b.length = expectedLen := by
  obtain ⟨alive, -, h⟩ := h.of_bind
  obtain ⟨candidates, -, h⟩ := h.of_bind
  obtain ⟨r, hr, h⟩ := h.of_bind
  split at h
  · cases h
    exact tryPeers_length hr
  · unfold askStampedeLeader at h
    split at h
    · dsimp only at h
      split at h
      · split at h
        · exact tryPeerFetch_length h
        · cases h
      · cases h
    · cases h

/-- A chunk that a fetch returns has the expected length. -/
theorem afterMemory_length {b : Bytes}
    (h : (afterMemory cfg mount blob key expectedLen).Returns (.ok b)) :
    b.length = expectedLen := by
  obtain ⟨hit, hhit, h⟩ := h.of_bind
  split at h
  · cases h
  · cases h
    exact cacheHit_length hhit
  · obtain ⟨role, -, h⟩ := h.of_bind
    split at h
    · exact followLeader_length h
    · obtain ⟨result, hresult, h⟩ := h.of_bind
      obtain ⟨_, -, h⟩ := h.of_bind
      cases h
      obtain ⟨found, hfound, hresult⟩ := hresult.of_bind
      split at hresult
      · cases hresult
        exact askPeers_length hfound
      · exact fetchBlobDirect_length hresult

end Lengths

/-! ## The miss counter -/

section Misses

variable {cfg : NodeConfig} {answer : Nat → Received} {env : Op → Choice} {t : Nat} {s : State}

def SameButMisses (s s' : State) : Prop := ∃ misses, s' = withMisses s misses

/-- No operation of the disk cache looks at the miss counter. -/
theorem disk_exec_withMisses (cfg : DiskConfig) (t : Nat) (c : DiskChoice) (d : Disk) (o : DiskOp)
    (misses : Nat) :
    ∃ misses', { d with stats := { d.stats with misses := misses } }.exec cfg t c o =
      ((d.exec cfg t c o).1,
        { (d.exec cfg t c o).2 with
          stats := { (d.exec cfg t c o).2.stats with misses := misses' } }) := by
  cases o with
  | touchLru key =>
      simp only [Disk.exec, Disk.touchLru]
      cases d.inner.touchLru key with
      | mk touched inner => cases touched <;> exact ⟨_, rfl⟩
  | removeSection key =>
      simp only [Disk.exec, Disk.removeSection]
      cases d.inner.dropEntry key <;> exact ⟨_, rfl⟩
  | create name =>
      simp only [Disk.exec, Disk.create]
      cases c.ioError <;> exact ⟨_, rfl⟩
  | writeAll fd data =>
      simp only [Disk.exec, Disk.writeAll]
      cases c.ioError <;> exact ⟨_, rfl⟩
  | rename tmp key =>
      simp only [Disk.exec, Disk.rename]
      cases c.ioError with
      | true => exact ⟨_, rfl⟩
      | false => cases d.dir.rename tmp (cfg.nameOf key) <;> exact ⟨_, rfl⟩
  | _ => exact ⟨_, rfl⟩

theorem exec_withMisses {o : Op} {c : Choice} {r : o.Resp} {u : State}
    (h : exec cfg t o c s = some (r, u)) (misses : Nat) :
    ∃ misses', exec cfg t o c (withMisses s misses) = some (r, withMisses u misses') := by
  cases o with
  | disk o =>
      obtain ⟨hdisk, hindex, hfetch⟩ := exec_disk h
      obtain ⟨misses', hexec⟩ := disk_exec_withMisses cfg.disk t c.disk s.disk o misses
      refine ⟨misses', ?_⟩
      rw [hdisk] at hexec
      simp only [exec, withMisses, hexec, hindex, hfetch]
  | index o =>
      obtain ⟨hexec, hdisk, hfetch⟩ := exec_index h
      refine ⟨misses, ?_⟩
      simp only [exec, withMisses, hexec, hdisk, hfetch]
  | fetch o =>
      obtain ⟨hexec, hdisk, hindex⟩ := exec_fetch h
      refine ⟨misses, ?_⟩
      simp only [exec, withMisses, hexec, hdisk, hindex]
  | snapshotKeys =>
      obtain ⟨hkeys, hdisk, hfetch, hindex⟩ := exec_snapshotKeys h
      refine ⟨misses, ?_⟩
      simp only [exec, withMisses, hdisk, hfetch, hindex, hkeys]

theorem respects_misses (o : Op) :
    Program.Respects (M := foretold cfg answer) SameButMisses
      ((foretold cfg answer).exec t o (env o)) := by
  rintro s _ ⟨misses, rfl⟩ r u h
  have hsame (hexec : ∀ s, (foretold cfg answer).exec t o (env o) s = exec cfg t o (env o) s) :
      ∃ u', (foretold cfg answer).exec t o (env o) (withMisses s misses) = some (r, u') ∧
        SameButMisses u u' := by
    rw [hexec] at h
    obtain ⟨misses', h'⟩ := exec_withMisses h misses
    exact ⟨_, (hexec _).trans h', misses', rfl⟩
  cases o with
  | fetch o =>
      cases o with
      | recv slot timed =>
          cases h
          exact ⟨_, rfl, misses, rfl⟩
      | _ => exact hsame fun _ => rfl
  | _ => exact hsame fun _ => rfl

end Misses

/-! ## A part of the chunk -/

section Part

variable {cfg : NodeConfig} {answer : Nat → Received} {env : Op → Choice} {t : Nat} {s : State}
  {fs : Op → DiskChoice} {mount : MountConfig} {blob : String}
  {offset subOffset subLen expectedLen : Nat}

/-- A second look at the LRU changes nothing any more. -/
theorem lruGet_lruGet (f : FetchState) (key : ChunkKey) :
    (f.lruGet key).2.lruGet key = f.lruGet key := by
  unfold FetchState.lruGet
  cases hlru : f.peerLru with
  | none => simp [hlru]
  | some lru =>
      have hget : (lru.get key).2.get key = lru.get key := by
        unfold PeerLru.get
        cases hkey : lru.inner.get? key with
        | none => simp [hkey]
        | some val => simp [FinMap.insert_insert]
      simp [hget]

theorem lruGet_inflightWrites (f : FetchState) (key : ChunkKey) :
    (f.lruGet key).2.inflightWrites = f.inflightWrites := by
  unfold FetchState.lruGet
  split <;> rfl

/-- The part is in a copy, or the whole chunk is fetched with nothing changed but the
order of the LRU and the miss counter. -/
theorem fetchChunkRange_yields (hfs : ∀ o, (env o).disk = fs o) (hlen : subLen ≠ 0)
    {R : Fetched → State → Prop}
    (hhit : ∀ b s', rangeCopy cfg fs s ⟨mount.name, blob, offset⟩ subOffset subLen expectedLen =
      some b → R (.ok b) s')
    (hmiss : rangeCopy cfg fs s ⟨mount.name, blob, offset⟩ subOffset subLen expectedLen = none →
      ∀ misses, (sliceOfFetched cfg mount blob offset subOffset subLen expectedLen).Yields
        (foretold cfg answer) env t (Program.evalJob (foretold cfg answer) env t 0)
        (withMisses (promoted s ⟨mount.name, blob, offset⟩) misses) R) :
    (fetchChunkRange cfg mount blob offset subOffset subLen expectedLen).Yields
      (foretold cfg answer) env t (Program.evalJob (foretold cfg answer) env t 0) s R := by
  unfold fetchChunkRange
  rw [if_neg hlen]
  unfold rangeCopy at hhit hmiss
  change Program.Yields (foretold cfg answer) env t _
    (match (s.fetch.inflightWrites.get? ⟨mount.name, blob, offset⟩).bind
        (subSlice · subOffset subLen) with
      | some b => _
      | none => _) s R
  cases hwrites : (s.fetch.inflightWrites.get? ⟨mount.name, blob, offset⟩).bind
      (subSlice · subOffset subLen) with
  | some b =>
      apply Program.Yields.pure
      apply hhit
      rw [hwrites]
      rfl
  | none =>
      rw [hwrites, Option.none_or] at hhit hmiss
      change Program.Yields (foretold cfg answer) env t _
        (match (ofLength expectedLen (s.fetch.lruGet ⟨mount.name, blob, offset⟩).1).bind
            (subSlice · subOffset subLen) with
          | some b => _
          | none => _) (promoted s ⟨mount.name, blob, offset⟩) R
      cases hlru : (ofLength expectedLen (s.fetch.lruGet ⟨mount.name, blob, offset⟩).1).bind
          (subSlice · subOffset subLen) with
      | some b =>
          apply Program.Yields.pure
          apply hhit
          rw [hlru]
          rfl
      | none =>
          rw [hlru, Option.none_or] at hhit hmiss
          apply Program.Yields.call_bind (Q := fun (v : Val) (s' : State) =>
            v = .cached (fileRange cfg fs s ⟨mount.name, blob, offset⟩ subOffset subLen) ∧
              (fileRange cfg fs s ⟨mount.name, blob, offset⟩ subOffset subLen = none →
                ∃ misses, s' = withMisses (promoted s ⟨mount.name, blob, offset⟩) misses))
          · apply (tryGetRange_reads hfs ⟨mount.name, blob, offset⟩ hlen).bind
            rintro r s₁ ⟨hr, hsame⟩
            rw [hr] at hsame ⊢
            exact .pure ⟨rfl, hsame⟩
          · rintro v s₁ ⟨rfl, hsame⟩
            cases hrange : fileRange cfg fs s ⟨mount.name, blob, offset⟩ subOffset subLen with
            | some b => exact .pure (hhit b s₁ hrange)
            | none =>
                obtain ⟨misses, rfl⟩ := hsame hrange
                exact hmiss hrange misses

theorem subSlice_of_le {b : Bytes} (h : subOffset + subLen ≤ b.length) :
    subSlice b subOffset subLen = some (slice b subOffset (subOffset + subLen)) :=
  if_pos h

/-- A copy that does not cover the part is not the whole chunk. -/
theorem ofLength_of_uncovered {copy : Option Bytes} (hsub : subOffset + subLen ≤ expectedLen)
    (h : (ofLength expectedLen copy).bind (subSlice · subOffset subLen) = none) :
    ofLength expectedLen copy = none := by
  cases hcopy : ofLength expectedLen copy with
  | none => rfl
  | some b =>
      have hlen : b.length = expectedLen := by
        simpa using (Option.filter_eq_some_iff.mp hcopy).2
      rw [hcopy, Option.bind_some, subSlice_of_le (hlen ▸ hsub)] at h
      cases h

theorem memory_miss (hsub : subOffset + subLen ≤ expectedLen) {key : ChunkKey}
    (hmiss : rangeCopy cfg fs s key subOffset subLen expectedLen = none) :
    ofLength expectedLen (s.fetch.inflightWrites.get? key) = none ∧
      ofLength expectedLen (s.fetch.lruGet key).1 = none := by
  simp only [rangeCopy, Option.or_eq_none_iff] at hmiss
  obtain ⟨hwrites, hlru, -⟩ := hmiss
  refine ⟨?_, ofLength_of_uncovered hsub hlru⟩
  apply ofLength_of_uncovered hsub
  cases hcopy : s.fetch.inflightWrites.get? key with
  | none => rfl
  | some b =>
      rw [hcopy] at hwrites
      rw [ofLength, Option.filter_some]
      split
      · exact hwrites
      · rfl

/-- When the part is in no copy, both ways take the same steps. -/
theorem sliceOfFetched_agrees (hsub : subOffset + subLen ≤ expectedLen)
    (hmiss : rangeCopy cfg fs s ⟨mount.name, blob, offset⟩ subOffset subLen expectedLen = none)
    {full : Bytes} {u : State}
    (hfull : (fetchChunk cfg mount blob offset expectedLen).evalWith (foretold cfg answer) env t
      (Program.evalJob (foretold cfg answer) env t 0) s = some (.ok full, u)) (misses : Nat) :
    (sliceOfFetched cfg mount blob offset subOffset subLen expectedLen).Yields
      (foretold cfg answer) env t (Program.evalJob (foretold cfg answer) env t 0)
      (withMisses (promoted s ⟨mount.name, blob, offset⟩) misses)
      fun r _ => r = .ok (slice full subOffset (subOffset + subLen)) := by
  obtain ⟨hwrites, hlru⟩ := memory_miss hsub hmiss
  have hrest := (fetchChunk_of_miss hwrites hlru).symm.trans hfull
  have hlen := afterMemory_length (Program.returns_of_evalWith hrest)
  have hagain : promoted (withMisses (promoted s ⟨mount.name, blob, offset⟩) misses)
      ⟨mount.name, blob, offset⟩ =
        withMisses (promoted s ⟨mount.name, blob, offset⟩) misses := by
    simp only [promoted, withMisses, lruGet_lruGet]
  have hlru' : ofLength expectedLen ((withMisses (promoted s ⟨mount.name, blob, offset⟩)
      misses).fetch.lruGet ⟨mount.name, blob, offset⟩).1 = none := by
    simp only [promoted, withMisses, lruGet_lruGet, hlru]
  obtain ⟨u', hrest', -⟩ := Program.Respects.evalWith (R := SameButMisses) respects_misses
    (Program.Respects.evalJob respects_misses 0)
    (afterMemory cfg mount blob ⟨mount.name, blob, offset⟩ expectedLen) _ _ ⟨misses, rfl⟩ _ _ hrest
  have hfull' : (fetchChunk cfg mount blob offset expectedLen).evalWith (foretold cfg answer) env t
      (Program.evalJob (foretold cfg answer) env t 0)
      (withMisses (promoted s ⟨mount.name, blob, offset⟩) misses) = some (.ok full, u') := by
    refine (fetchChunk_of_miss ?_ hlru').trans ?_
    · simp only [promoted, withMisses, lruGet_inflightWrites, hwrites]
    · rw [hagain]
      exact hrest'
  apply Program.Yields.bind (Q := fun (r : Fetched) _ => r = .ok full) ⟨_, _, hfull', rfl⟩
  rintro r s₁ rfl
  dsimp only
  rw [subSlice_of_le (hlen ▸ hsub)]
  exact .pure rfl

/-! ## The comparison -/

/-- If `fetch_chunk` returns a chunk from this state, `fetch_chunk_range` returns the
part of it. -/
def RangeAgrees (cfg : NodeConfig) (answer : Nat → Received) (env : Op → Choice) (t : Nat)
    (s : State) (mount : MountConfig) (blob : String)
    (offset subOffset subLen expectedLen : Nat) : Prop :=
  ∀ full s',
    callAlone cfg answer env t (.fetchChunk mount blob offset expectedLen) s =
      some (.fetched (.ok full), s') →
    ∃ u, callAlone cfg answer env t
        (.fetchChunkRange mount blob offset subOffset subLen expectedLen) s =
      some (.fetched (.ok (slice full subOffset (subOffset + subLen))), u)

theorem callAlone_fetchChunk {r : Fetched} {u : State} :
    callAlone cfg answer env t (.fetchChunk mount blob offset expectedLen) s =
        some (.fetched r, u) ↔
      (fetchChunk cfg mount blob offset expectedLen).evalWith (foretold cfg answer) env t
        (Program.evalJob (foretold cfg answer) env t 0) s = some (r, u) :=
  Program.evalWith_map_iff fun _ _ => Val.fetched.inj

theorem callAlone_fetchChunkRange {r : Fetched} {u : State} :
    callAlone cfg answer env t (.fetchChunkRange mount blob offset subOffset subLen expectedLen) s =
        some (.fetched r, u) ↔
      (fetchChunkRange cfg mount blob offset subOffset subLen expectedLen).evalWith
        (foretold cfg answer) env t (Program.evalJob (foretold cfg answer) env t 0) s =
          some (r, u) :=
  Program.evalWith_map_iff fun _ _ => Val.fetched.inj

/-- What `fetch_chunk_range` returns when the part is in a copy. -/
theorem fetchChunkRange_of_copy (hfs : ∀ o, (env o).disk = fs o) (hlen : subLen ≠ 0) {b : Bytes}
    (hcopy : rangeCopy cfg fs s ⟨mount.name, blob, offset⟩ subOffset subLen expectedLen = some b) :
    (fetchChunkRange cfg mount blob offset subOffset subLen expectedLen).Yields
      (foretold cfg answer) env t (Program.evalJob (foretold cfg answer) env t 0) s
      fun r _ => r = .ok b := by
  apply fetchChunkRange_yields hfs hlen
  · intro b' _ hb'
    rw [hcopy] at hb'
    cases hb'
    rfl
  · intro hmiss
    rw [hcopy] at hmiss
    cases hmiss

/-- The copy holds what `fetch_chunk` would return, if the two agree. -/
theorem RangeAgrees.copy
    (h : RangeAgrees cfg answer env t s mount blob offset subOffset subLen expectedLen)
    (hfs : ∀ o, (env o).disk = fs o) (hlen : subLen ≠ 0) {b full : Bytes}
    (hcopy : rangeCopy cfg fs s ⟨mount.name, blob, offset⟩ subOffset subLen expectedLen = some b)
    (hfull : (fetchChunk cfg mount blob offset expectedLen).Yields (foretold cfg answer) env t
      (Program.evalJob (foretold cfg answer) env t 0) s fun r _ => r = .ok full) :
    b = slice full subOffset (subOffset + subLen) := by
  obtain ⟨_, s', hfull, rfl⟩ := hfull
  obtain ⟨u, hrange⟩ := h full s' (callAlone_fetchChunk.mpr hfull)
  have hb := (fetchChunkRange_of_copy hfs hlen hcopy).result (callAlone_fetchChunkRange.mp hrange)
  cases hb
  rfl

theorem slice_replicate (hsub : subOffset + subLen ≤ expectedLen) (x : UInt8) :
    slice (List.replicate expectedLen x) subOffset (subOffset + subLen) =
      List.replicate subLen x := by
  have hmin : min (subOffset + subLen - subOffset) (expectedLen - subOffset) = subLen := by omega
  rw [slice, List.drop_replicate, List.take_replicate, hmin]

/-- The two ways to read a part agree, whatever the origin, the peers and a leader that
the caller follows answer, if and only if the part is empty, or it is in no copy, or the
copy that it is taken from agrees with the copy that `fetch_chunk` returns. -/
theorem range_agrees_iff (fs : Op → DiskChoice) (hsub : subOffset + subLen ≤ expectedLen) :
    (∀ answer env, (∀ o, (env o).disk = fs o) →
        RangeAgrees cfg answer env t s mount blob offset subOffset subLen expectedLen) ↔
      subLen = 0 ∨
      rangeCopy cfg fs s ⟨mount.name, blob, offset⟩ subOffset subLen expectedLen = none ∨
      ∃ full, fullCopy cfg fs s ⟨mount.name, blob, offset⟩ expectedLen = some full ∧
        rangeCopy cfg fs s ⟨mount.name, blob, offset⟩ subOffset subLen expectedLen =
          some (slice full subOffset (subOffset + subLen)) := by
  constructor
  · intro h
    by_cases hlen : subLen = 0
    · exact .inl hlen
    cases hcopy : rangeCopy cfg fs s ⟨mount.name, blob, offset⟩ subOffset subLen expectedLen with
    | none => exact .inr (.inl rfl)
    | some b =>
        cases hfull : fullCopy cfg fs s ⟨mount.name, blob, offset⟩ expectedLen with
        | some full =>
            have hfs : ∀ o, (delivering fs [] o).disk = fs o := fun _ => rfl
            have hb := (h (fun _ => .closed) (delivering fs []) hfs).copy hfs hlen hcopy
              (fetchChunk_of_copy hfs hfull)
            exact .inr (.inr ⟨full, rfl, by rw [hb]⟩)
        | none =>
            -- two answers of the origin that differ in every byte
            have hdelivered (x : UInt8) : b = List.replicate subLen x := by
              have hfs : ∀ o, (delivering fs (List.replicate expectedLen x) o).disk = fs o :=
                fun _ => rfl
              have hb := (h (fun _ => .message (.ok (List.replicate expectedLen x)))
                (delivering fs (List.replicate expectedLen x)) hfs).copy hfs hlen hcopy
                (fetchChunk_delivers List.length_replicate hfull)
              rw [hb, slice_replicate hsub]
            have hsame : List.replicate subLen (0 : UInt8) = List.replicate subLen 1 := by
              rw [← hdelivered 0, hdelivered 1]
            have hbyte := (List.replicate_inj.mp hsame).2.resolve_left hlen
            cases hbyte
  · intro hcond answer env hfs full s' hfull
    rw [callAlone_fetchChunk] at hfull
    simp only [callAlone_fetchChunkRange]
    by_cases hlen : subLen = 0
    · subst hlen
      refine ⟨s, ?_⟩
      rw [Nat.add_zero, slice, Nat.sub_self, List.take_zero]
      rfl
    · have hyields : (fetchChunkRange cfg mount blob offset subOffset subLen expectedLen).Yields
          (foretold cfg answer) env t (Program.evalJob (foretold cfg answer) env t 0) s
          fun r _ => r = .ok (slice full subOffset (subOffset + subLen)) := by
        rcases hcond with hzero | hmiss | ⟨copy, hcopy, hrange⟩
        · exact absurd hzero hlen
        · apply fetchChunkRange_yields hfs hlen
          · intro b _ hb
            rw [hmiss] at hb
            cases hb
          · intro _ misses
            exact sliceOfFetched_agrees hsub hmiss hfull misses
        · have hsame := (fetchChunk_of_copy hfs hcopy).result hfull
          cases hsame
          exact fetchChunkRange_of_copy hfs hlen hrange
      obtain ⟨_, u, heval, rfl⟩ := hyields
      exact ⟨u, heval⟩

end Part

/-- The node has stored `data` as the first chunk. -/
def storedState (data : Bytes) : Option State :=
  (Program.evalJob (machine sampleConfig) (fun _ => Choice.benign) 0 0
    (.insert (sampleKey 0) data) (State.new sampleConfig)).map Prod.snd

theorem range_agrees_iff_stored :
    ∃ s, storedState [1, 2, 3, 4] = some s ∧
      rangeCopy sampleConfig (fun _ => .benign) s (sampleKey 0) 1 2 4 = some [2, 3] ∧
      ∀ answer env, (∀ o, (env o).disk = DiskChoice.benign) →
        RangeAgrees sampleConfig answer env 1 s sampleMount "b" 0 1 2 4 := by
  have hcopies : (storedState [1, 2, 3, 4]).any (fun s => decide
      (rangeCopy sampleConfig (fun _ => .benign) s (sampleKey 0) 1 2 4 = some [2, 3] ∧
        fullCopy sampleConfig (fun _ => .benign) s (sampleKey 0) 4 = some [1, 2, 3, 4])) := by
    decide +kernel
  obtain ⟨s, hs, hcopies⟩ := Option.any_eq_true _ _ |>.mp hcopies
  obtain ⟨hrange, hfull⟩ := of_decide_eq_true hcopies
  refine ⟨s, hs, hrange, ?_⟩
  exact (range_agrees_iff (fun _ => .benign) (by decide)).mpr (.inr (.inr ⟨_, hfull, hrange⟩))

/-- The chunk had five bytes when it was stored, and has four now. A part of it is still read
from the five. -/
theorem range_from_stale_chunk :
    ∃ s, storedState [1, 2, 3, 4, 5] = some s ∧
      (callAlone sampleConfig (fun _ => .closed) (delivering (fun _ => .benign) [9, 9, 9, 9]) 1
        (.fetchChunk sampleMount "b" 0 4) s).map Prod.fst = some (.fetched (.ok [9, 9, 9, 9])) ∧
      (callAlone sampleConfig (fun _ => .closed) (delivering (fun _ => .benign) [9, 9, 9, 9]) 1
        (.fetchChunkRange sampleMount "b" 0 1 2 4) s).map Prod.fst =
          some (.fetched (.ok [2, 3])) ∧
      ¬ RangeAgrees sampleConfig (fun _ => .closed) (delivering (fun _ => .benign) [9, 9, 9, 9]) 1 s
        sampleMount "b" 0 1 2 4 := by
  have hfull : ((storedState [1, 2, 3, 4, 5]).bind fun s =>
      (callAlone sampleConfig (fun _ => .closed) (delivering (fun _ => .benign) [9, 9, 9, 9]) 1
        (.fetchChunk sampleMount "b" 0 4) s).map Prod.fst) =
      some (.fetched (.ok [9, 9, 9, 9])) := by decide +kernel
  have hrange : ((storedState [1, 2, 3, 4, 5]).bind fun s =>
      (callAlone sampleConfig (fun _ => .closed) (delivering (fun _ => .benign) [9, 9, 9, 9]) 1
        (.fetchChunkRange sampleMount "b" 0 1 2 4) s).map Prod.fst) =
      some (.fetched (.ok [2, 3])) := by decide +kernel
  obtain ⟨s, hs, hfull⟩ := Option.bind_eq_some_iff.mp hfull
  rw [hs, Option.bind_some] at hrange
  refine ⟨s, hs, hfull, hrange, ?_⟩
  intro hagrees
  obtain ⟨⟨_, s'⟩, heval, rfl⟩ := Option.map_eq_some_iff.mp hfull
  obtain ⟨u, hslice⟩ := hagrees _ s' heval
  rw [hslice, Option.map_some] at hrange
  have hparts : slice [9, 9, 9, 9] 1 3 ≠ [2, 3] := by decide
  simp only [Option.some.injEq, Val.fetched.injEq, Except.ok.injEq] at hrange
  exact hparts hrange

end BlobCache.Node
