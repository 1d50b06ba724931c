import BlobCache.Node.FetchSpecs
import BlobCache.Node.Ranges

/-!
The requests themselves: reads of a part of a chunk, chunks served to peers
and pulled from them, reads of a range with its tasks, inserts in the
background and the clearing of a node. `body_spec` collects the
specifications of all jobs.
-/

namespace BlobCache.Node

open Cache Conc

variable {cfg : NodeConfig} {env : Env cfg} {l : Loc}

theorem subSlice_eq_some {bytes b : Bytes} {offset len : Nat} :
    subSlice bytes offset len = some b ↔
      offset + len ≤ bytes.length ∧ b = slice bytes offset (offset + len) := by
  unfold subSlice
  split
  · rename_i h
    simp [h, eq_comm]
  · rename_i h
    simp [h]

theorem subSlice_partOf {key : ChunkKey} {offset len : Nat} {hit : Option Bytes}
    (hhit : ∀ d, hit = some d → env.good key d) :
    ∀ b, hit.bind (subSlice · offset len) = some b → env.partOf key offset len b := by
  intro b hb
  obtain ⟨d, hd, hslice⟩ := Option.bind_eq_some_iff.mp hb
  obtain ⟨hle, hbeq⟩ := subSlice_eq_some.mp hslice
  exact ⟨d, hhit d hd, hle, hbeq⟩

theorem inflightWritesSlice_spec (key : ChunkKey) (offset len : Nat) :
    Spec env l (inflightWritesSlice key offset len) fun r l' =>
      l' = l ∧ ∀ b, r = some b → env.partOf key offset len b := by
  unfold inflightWritesSlice
  exact Spec.fetch_bind trivial fun hit hhit => Spec.pure ⟨rfl, subSlice_partOf hhit⟩

theorem peerLruSlice_spec (key : ChunkKey) (offset len n : Nat) :
    Spec env l (peerLruSlice key offset len n) fun r l' =>
      l' = l ∧ ∀ b, r = some b → env.partOf key offset len b := by
  unfold peerLruSlice
  refine Spec.fetch_bind trivial fun hit hhit => Spec.pure ⟨rfl, subSlice_partOf ?_⟩
  intro d hd
  exact (ofLength_good hhit d hd).1

theorem sliceOfFetched_spec {mount : MountConfig} {blob : String} {offset sub len n : Nat}
    (hnet : env.net) (hkey : (⟨mount.name, blob, offset⟩ : ChunkKey) ∈ env.keys)
    (hlen : l.job.expectedLen = some n) (hquiet : l.Quiet) :
    Spec env l (sliceOfFetched cfg mount blob offset sub len n) fun r l' =>
      l.Same l' ∧ env.slicedOk l' ⟨mount.name, blob, offset⟩ sub len n r := by
  unfold sliceOfFetched
  refine Spec.bind (fetchChunkInner_spec hnet hkey hlen hquiet) ?_
  rintro r l' ⟨hsame, hr⟩
  cases r with
  | error e => exact Spec.pure ⟨hsame, .inl hr⟩
  | ok full =>
      dsimp only
      split
      · rename_i b hb
        obtain ⟨hle, hbeq⟩ := subSlice_eq_some.mp hb
        exact Spec.pure ⟨hsame, .inr ⟨full, hr.1, hle, hbeq⟩⟩
      · rename_i hb
        have hlt : full.length < sub + len := by
          by_contra hge
          simp [subSlice, Nat.not_lt.mp hge] at hb
        exact Spec.pure ⟨hsame, .inr ⟨full, hr.1, hr.2, hlt⟩⟩

theorem fetchChunkRange_spec {mount : MountConfig} {blob : String} {offset sub len n : Nat}
    (hnet : env.net) (hkey : (⟨mount.name, blob, offset⟩ : ChunkKey) ∈ env.keys)
    (hlen : l.job.expectedLen = some n) (hquiet : l.Quiet) :
    Spec env l (fetchChunkRange cfg mount blob offset sub len n) fun r l' =>
      l.Same l' ∧ env.slicedOk l' ⟨mount.name, blob, offset⟩ sub len n r := by
  unfold fetchChunkRange
  split
  · rename_i hzero
    exact Spec.pure ⟨.refl _, .inl ⟨hzero, rfl⟩⟩
  · rename_i hpos
    refine Spec.bind (inflightWritesSlice_spec _ _ _) ?_
    rintro r l ⟨rfl, hr⟩
    cases r with
    | some b => exact Spec.pure ⟨.refl _, .inr (hr b rfl)⟩
    | none =>
        refine Spec.bind (peerLruSlice_spec _ _ _ _) ?_
        rintro r l ⟨rfl, hr⟩
        cases r with
        | some b => exact Spec.pure ⟨.refl _, .inr (hr b rfl)⟩
        | none =>
            refine Spec.call_bind hkey (by simp [Env.spawnPre, hlen]) ?_ ?_
            · intro t
              exact Spec.pure ⟨.called _ _ _, .inl (.inr (.inr (.inl (Loc.joined_lost _ _ rfl))))⟩
            · rintro t v lc ⟨r, rfl, hr⟩
              cases r with
              | some b => exact Spec.pure ⟨.called _ _ _, hr b rfl⟩
              | none =>
                  have hcalled := Loc.Same.called l ⟨t, .tryGetRange ⟨mount.name, blob, offset⟩
                    sub len⟩ (some (.cached none))
                  refine Spec.mono (sliceOfFetched_spec hnet hkey hlen (hcalled.quiet hquiet)) ?_
                  rintro r l' ⟨hsame, hr'⟩
                  exact ⟨hcalled.trans hsame, hr'⟩

theorem chunkTask_spec {mount : MountConfig} {blob : String} {offset start len n : Nat}
    (hnet : env.net) (hkey : (⟨mount.name, blob, offset⟩ : ChunkKey) ∈ env.keys)
    (hlen : l.job.expectedLen = some n) (hquiet : l.Quiet) :
    Spec env l (chunkTask cfg mount blob offset start len n) fun r l' =>
      l.Same l' ∧ ∀ o b, r = .ok (o, b) →
        o = offset ∧ env.rangeOk ⟨mount.name, blob, offset⟩ start len b := by
  unfold chunkTask
  refine Spec.bind (fetchChunkRange_spec hnet hkey hlen hquiet) ?_
  rintro r l' ⟨hsame, hr⟩
  cases r with
  | error e => exact Spec.pure ⟨hsame, by simp⟩
  | ok b =>
      refine Spec.pure ⟨hsame, ?_⟩
      rintro o b' ⟨⟩
      exact ⟨rfl, hr⟩

theorem followTimed_spec {key : ChunkKey} {slot n : Nat}
    (hjob : ∃ k n w, l.job = .servePeerChunk k n w) (hrx : l.rx = some (key, slot)) :
    Spec env l (followTimed slot n) fun r l' =>
      { l with rx := none }.Same l' ∧
        match r with
        | some d => env.good key d ∧ d.length = n
        | none => env.blame l' key n := by
  unfold followTimed
  refine Spec.fetch_bind ⟨⟨key, hrx⟩, fun _ => hjob⟩ fun heard hheard => ?_
  have hnext : fetchNext l (.recv slot true) heard =
      { l with rx := none, heard := some (key, slot, heard) } := by
    simp [fetchNext, hrx]
  rw [hnext]
  cases heard with
  | closed | elapsed =>
      exact Spec.pure ⟨⟨rfl, rfl, rfl, rfl, rfl⟩, .inr (.inr (.inr ⟨slot, _, rfl, rfl⟩))⟩
  | message msg =>
      cases msg with
      | error e =>
          exact Spec.pure ⟨⟨rfl, rfl, rfl, rfl, rfl⟩, .inr (.inr (.inr ⟨slot, _, rfl, rfl⟩))⟩
      | ok data =>
          have hgood : env.good key data := hheard key hrx data rfl
          refine Spec.pure ⟨⟨rfl, rfl, rfl, rfl, rfl⟩, ?_⟩
          by_cases heq : data.length = n
          · have hhit : ofLength n (some data) = some data := by simp [ofLength, heq]
            rw [hhit]
            exact ⟨hgood, heq⟩
          · have hmiss : ofLength n (some data) = none := by simp [ofLength, heq]
            rw [hmiss]
            exact .inr (.inl ⟨data, hgood, heq⟩)

/-- What a peer is served: the chunk, unless the thread can say why not. -/
def Env.servedOk (env : Env cfg) (l : Loc) (key : ChunkKey) (n : Nat) : Option Bytes → Prop
  | some d => env.good key d ∧ d.length = n
  | none => env.blame l key n ∨ cfg.mounts.get? key.mount = none

theorem leadServe_spec {key : ChunkKey} {n : Nat} (hnet : env.net) (hkey : key ∈ env.keys)
    (hlen : l.job.expectedLen = some n) (hlead : l.lead = some key) (hasked : l.asked = false) :
    Spec env l (leadServe cfg key n) fun r l' =>
      { l with lead := none }.Same l' ∧ env.servedOk l' key n r := by
  unfold leadServe
  split
  · rename_i hmount
    refine Spec.fetch_bind ⟨hlead, hasked, hmount⟩ fun _ _ => ?_
    exact Spec.pure ⟨⟨rfl, rfl, rfl, rfl, rfl⟩, .inr hmount⟩
  · refine Spec.bind (fetchBlobDirect_spec hnet hkey hlen hlead hasked) ?_
    rintro r l' ⟨st, ch, rfl, hr⟩
    cases r with
    | ok d =>
        refine Spec.fetch_bind ⟨hlead, hr.1, .inl hr.2.2⟩ fun _ _ => ?_
        exact Spec.pure ⟨⟨rfl, rfl, rfl, rfl, rfl⟩, hr.1, hr.2.1⟩
    | error e =>
        have hreason : env.originErr ∨ ∃ m, l.job.expectedLen = some m ∧ env.wrongLen key m :=
          hr.imp_right fun hw => ⟨n, hlen, hw⟩
        refine Spec.fetch_bind ⟨hlead, hreason⟩ fun _ _ => ?_
        exact Spec.pure ⟨⟨rfl, rfl, rfl, rfl, rfl⟩, .inl (hr.imp_right .inl)⟩

theorem enterServe_spec {key : ChunkKey} {n : Nat} (hnet : env.net) (hkey : key ∈ env.keys)
    (hjob : ∃ k w, l.job = .servePeerChunk k n w) (hquiet : l.Quiet) :
    Spec env l (enterServe cfg key n) fun r l' =>
      l.Same l' ∧ env.servedOk l' key n r := by
  have hlen : l.job.expectedLen = some n := by
    obtain ⟨k, w, hjob⟩ := hjob
    rw [hjob]
    rfl
  unfold enterServe
  refine Spec.fetch_bind ⟨hquiet.lead, hquiet.rx, hkey, by simp [hlen]⟩ fun role _ => ?_
  cases role with
  | follower slot =>
      have hserve : ∃ k n w, l.job = .servePeerChunk k n w := by
        obtain ⟨k, w, hjob⟩ := hjob
        exact ⟨k, n, w, hjob⟩
      refine Spec.mono (followTimed_spec hserve rfl) ?_
      rintro r l' ⟨hs, hr⟩
      refine ⟨⟨hs.job, hs.file, hs.lead, hs.rx.trans hquiet.rx.symm, hs.snap⟩, ?_⟩
      cases r with
      | some d => exact hr
      | none => exact .inl hr
  | leader =>
      refine Spec.mono (leadServe_spec hnet hkey hlen rfl rfl) ?_
      rintro r l' ⟨hs, hr⟩
      exact ⟨⟨hs.job, hs.file, hs.lead.trans hquiet.lead.symm, hs.rx, hs.snap⟩, hr⟩

theorem servePeerChunk_spec {key : ChunkKey} {n waitMs : Nat} (hnet : env.net)
    (hkey : key ∈ env.keys) (hjob : l.job = .servePeerChunk key n waitMs) (hquiet : l.Quiet) :
    Spec env l (servePeerChunk cfg key n waitMs) fun r l' =>
      l.Same l' ∧ env.servedOk l' key n r := by
  have henter (h : Handle effect) (v : Option Val) :
      Spec env ((l.spawned h).joined h v) (enterServe cfg key n) fun r l' =>
        l.Same l' ∧ env.servedOk l' key n r := by
    have hcalled := Loc.Same.called l h v
    refine Spec.mono (enterServe_spec hnet hkey ⟨key, waitMs, hjob⟩ (hcalled.quiet hquiet)) ?_
    rintro r l' ⟨hsame, hr⟩
    exact ⟨hcalled.trans hsame, hr⟩
  unfold servePeerChunk
  refine Spec.call_bind hkey (by simp [Env.spawnPre, hjob, Job.expectedLen]) ?_ ?_
  · intro t
    exact henter _ _
  · rintro t v lc ⟨r, rfl, hr⟩
    cases r with
    | none => exact henter _ _
    | some b =>
        dsimp only
        split
        · rename_i heq
          exact Spec.pure ⟨.called _ _ _, hr b rfl, heq⟩
        · exact henter _ _

theorem pullFallback_spec {mount : MountConfig} {blob peerId : String} {offset n : Nat}
    (hnet : env.net) (hkey : (⟨mount.name, blob, offset⟩ : ChunkKey) ∈ env.keys)
    (hlen : l.job.expectedLen = some n) (hquiet : l.Quiet) :
    Spec env l (pullFallback cfg mount blob offset n peerId) fun r l' =>
      l.Same l' ∧ ∀ d, r = .ok d → env.good ⟨mount.name, blob, offset⟩ d ∧ d.length = n := by
  unfold pullFallback
  refine Spec.bind (fetchChunkInner_spec hnet hkey hlen hquiet) ?_
  rintro r l' ⟨hsame, hr⟩
  cases r with
  | error e => exact Spec.pure ⟨hsame, by simp⟩
  | ok d =>
      refine Spec.pure ⟨hsame, ?_⟩
      rintro d' ⟨⟩
      exact hr

theorem pullFromPeer_spec {mount : MountConfig} {blob peerId url : String} {offset n : Nat}
    {addr : Option Bytes} {waitMs : Nat}
    (hnet : env.net) (hkey : (⟨mount.name, blob, offset⟩ : ChunkKey) ∈ env.keys)
    (hlen : l.job.expectedLen = some n) (hquiet : l.Quiet) :
    Spec env l (pullFromPeer cfg mount blob offset n peerId url addr waitMs) fun r l' =>
      l.Same l' ∧ ∀ d, r = .ok d → env.good ⟨mount.name, blob, offset⟩ d ∧ d.length = n := by
  unfold pullFromPeer
  refine Spec.fetch_bind ⟨hnet, hkey⟩ fun reply hreply => ?_
  cases reply with
  | error e =>
      cases e
      case notFound => exact pullFallback_spec hnet hkey hlen hquiet
      all_goals exact Spec.pure ⟨.refl _, by simp⟩
  | ok data =>
      obtain ⟨hgood, -⟩ := hreply data rfl
      dsimp only
      split
      · exact Spec.pure ⟨.refl _, by simp⟩
      · rename_i heq
        have heq : data.length = n := not_not.mp heq
        refine Spec.bind (spawnInsert_spec hkey hgood (hlen.trans (by rw [heq]))) ?_
        rintro _ l' ⟨ch, rfl⟩
        refine Spec.pure ⟨⟨rfl, rfl, rfl, rfl, rfl⟩, ?_⟩
        rintro d ⟨⟩
        exact ⟨hgood, heq⟩

theorem pullChunkFromPeerWait_spec {mount : MountConfig} {blob peerId url : String}
    {offset n : Nat} {addr : Option Bytes} {waitMs : Nat}
    (hnet : env.net) (hkey : (⟨mount.name, blob, offset⟩ : ChunkKey) ∈ env.keys)
    (hlen : l.job.expectedLen = some n) (hquiet : l.Quiet) :
    Spec env l (pullChunkFromPeerWait cfg mount blob offset n peerId url addr waitMs)
      fun r l' => l.Same l' ∧
        ∀ d, r = .ok d → env.good ⟨mount.name, blob, offset⟩ d ∧ d.length = n := by
  unfold pullChunkFromPeerWait
  refine Spec.bind (tryGet_spec hquiet.file hkey) ?_
  rintro r l ⟨rfl, hr⟩
  cases r with
  | none => exact pullFromPeer_spec hnet hkey hlen hquiet
  | some b =>
      dsimp only
      split
      · rename_i heq
        refine Spec.pure ⟨.refl _, ?_⟩
        rintro d ⟨⟩
        exact ⟨hr b rfl, heq⟩
      · exact pullFromPeer_spec hnet hkey hlen hquiet

theorem prefetchLoop_spec {mount : MountConfig} {blob : String}
    {cur offset length fileSize : Nat} (hnet : env.net)
    (hjob : l.job = .fetchRange mount blob offset length fileSize)
    (hcovers : env.covers mount blob fileSize) (hcur : cfg.chunkSize ∣ cur) (is : List Nat) :
    Spec env l (prefetchLoop cfg mount blob cur fileSize is) fun _ l' => l.Same l' := by
  induction is generalizing l with
  | nil => exact Spec.pure (.refl _)
  | cons i is ih =>
      unfold prefetchLoop
      dsimp only
      split
      · exact Spec.pure (.refl _)
      · rename_i hlt
        refine Spec.disk_bind trivial fun cached _ => ?_
        split
        · exact ih hjob
        · refine Spec.fetch_bind trivial fun writing _ => ?_
          split
          · exact ih hjob
          · refine Spec.fetch_bind trivial fun inflight _ => ?_
            split
            · exact ih hjob
            · obtain ⟨n, hn⟩ : cfg.chunkSize ∣ cur + i * cfg.chunkSize :=
                Nat.dvd_add hcur (Nat.dvd_mul_left _ _)
              rw [Nat.mul_comm cfg.chunkSize n] at hn
              rw [hn] at hlt ⊢
              refine Spec.spawn_bind ⟨hnet, hcovers n (by omega)⟩
                ⟨offset, length, fileSize, hjob⟩ fun t => ?_
              exact Spec.mono (ih hjob) fun _ _ h => ⟨h.job, h.file, h.lead, h.rx, h.snap⟩

theorem maybeTriggerPrefetch_spec {mount : MountConfig} {blob : String}
    {offset stop length fileSize : Nat} (hnet : env.net)
    (hjob : l.job = .fetchRange mount blob offset length fileSize)
    (hcovers : env.covers mount blob fileSize) :
    Spec env l (maybeTriggerPrefetch cfg mount blob offset stop fileSize)
      fun _ l' => l.Same l' := by
  unfold maybeTriggerPrefetch
  split
  · exact Spec.pure (.refl _)
  · refine Spec.fetch_bind trivial fun streaks _ => ?_
    split
    · exact Spec.pure (.refl _)
    · split
      · exact Spec.pure (.refl _)
      · dsimp only
        refine prefetchLoop_spec hnet hjob hcovers ?_ _
        split
        · exact Nat.dvd_zero _
        · exact Nat.dvd_mul_left _ _

/-- The tasks of `fetch_range` are started in the order of their chunks. -/
theorem spawnAll_spec {mount : MountConfig} {blob : String} {offset length fileSize : Nat}
    (hjob : l.job = .fetchRange mount blob offset length fileSize) (offsets : List Nat)
    (hok : ∀ o ∈ offsets, env.net ∧ (⟨mount.name, blob, o⟩ : ChunkKey) ∈ env.keys) :
    Spec env l (spawnAll (offsets.map (chunkTaskAt cfg mount blob offset
        (min (saturatingAdd offset length) fileSize) fileSize)))
      fun hs l' => l.Same l' ∧
        hs.map (·.job) = offsets.map (chunkTaskAt cfg mount blob offset
          (min (saturatingAdd offset length) fileSize) fileSize) := by
  induction offsets generalizing l with
  | nil => exact Spec.pure ⟨.refl _, rfl⟩
  | cons o offsets ih =>
      refine Spec.spawn_bind (hok o (by simp)) ⟨offset, length, fileSize, hjob, rfl⟩ fun t => ?_
      refine Spec.bind (ih hjob fun o' ho' => hok o' (by simp [ho'])) ?_
      rintro hs l' ⟨hsame, hjobs⟩
      exact Spec.pure ⟨⟨hsame.job, hsame.file, hsame.lead, hsame.rx, hsame.snap⟩,
        congrArg (List.cons _) hjobs⟩

theorem joinChunks_spec {mount : MountConfig} {blob : String} {offset stop fileSize : Nat}
    (hs : List (Handle effect)) (offsets : List Nat)
    (hjobs : hs.map (·.job) = offsets.map (chunkTaskAt cfg mount blob offset stop fileSize)) :
    Spec env l (joinChunks hs) fun r l' => l.Same l' ∧
      ∀ pieces, r = .ok pieces → pieces.map Prod.fst = offsets ∧
        ∀ o b, (o, b) ∈ pieces → env.rangeOk ⟨mount.name, blob, o⟩ (takeStart offset o)
          (takeLen cfg offset stop fileSize o) b := by
  induction hs generalizing l offsets with
  | nil =>
      cases offsets with
      | nil =>
          refine Spec.pure ⟨.refl _, ?_⟩
          rintro pieces ⟨⟩
          simp
      | cons o offsets => simp at hjobs
  | cons h hs ih =>
      cases offsets with
      | nil => simp at hjobs
      | cons o offsets =>
          obtain ⟨hjob, hrest⟩ := List.cons.inj hjobs
          have hcalled (r : Option Val) : l.Same (l.joined h r) := ⟨rfl, rfl, rfl, rfl, rfl⟩
          refine Spec.join_bind hjob (Spec.pure ⟨hcalled none, by simp⟩) ?_
          rintro v lc ⟨r, rfl, hval⟩
          cases r with
          | error e => exact Spec.pure ⟨hcalled _, by simp⟩
          | ok c =>
              obtain ⟨o', b⟩ := c
              obtain ⟨rfl, hb⟩ := hval o' b rfl
              refine Spec.bind (ih offsets hrest) ?_
              rintro r l' ⟨hsame, hr⟩
              cases r with
              | error e => exact Spec.pure ⟨(hcalled _).trans hsame, by simp⟩
              | ok pieces =>
                  obtain ⟨hfst, hpieces⟩ := hr pieces rfl
                  refine Spec.pure ⟨(hcalled _).trans hsame, ?_⟩
                  rintro _ ⟨⟩
                  refine ⟨by simp [hfst], ?_⟩
                  intro x y hxy
                  rcases List.mem_cons.mp hxy with heq | hmem
                  · cases heq
                    exact hb
                  · exact hpieces x y hmem

/-- Chunks that are already in order are only put together. -/
theorem assemble_of_pairwise {pieces : List (Nat × Bytes)}
    (h : (pieces.map Prod.fst).Pairwise (· < ·)) : assemble pieces = pieces.flatMap Prod.snd := by
  have hsorted : pieces.Pairwise fun a b => a.1 ≤ b.1 :=
    (List.pairwise_map.mp h).imp fun hlt => le_of_lt hlt
  rw [assemble, hsorted.insertionSort_eq]
  split
  · simp
  · rfl

theorem fetchRange_spec {mount : MountConfig} {blob : String} {offset length fileSize : Nat}
    (hok : env.jobOk (.fetchRange mount blob offset length fileSize))
    (hjob : l.job = .fetchRange mount blob offset length fileSize) :
    Spec env l (fetchRange cfg mount blob offset length fileSize) fun r l' =>
      l.Same l' ∧ env.valueOk l' (.fetchRange mount blob offset length fileSize) (.fetched r) := by
  obtain ⟨hnet, hcs, hmax, hcovers⟩ := hok
  unfold fetchRange
  split
  · rename_i hzero
    refine Spec.pure ⟨.refl _, _, rfl, ?_⟩
    rintro out ⟨⟩
    exact .inl ⟨.inl hzero, rfl⟩
  · split
    · exact Spec.pure ⟨.refl _, _, rfl, by simp⟩
    · dsimp only
      split
      · rename_i hstop
        refine Spec.pure ⟨.refl _, _, rfl, ?_⟩
        rintro out ⟨⟩
        exact .inl ⟨.inr hstop, rfl⟩
      · rename_i hstop
        have hlt := Nat.not_le.mp hstop
        refine Spec.bind (maybeTriggerPrefetch_spec hnet hjob hcovers) ?_
        rintro _ l1 hsame1
        refine Spec.bind (spawnAll_spec (hsame1.job.trans hjob) _ ?_) ?_
        · intro o ho
          obtain ⟨holt, hdvd⟩ := rangeOffsets_mem hlt ho
          exact ⟨hnet, hcovers.chunk env hmax (by omega) hdvd⟩
        · rintro hs l2 ⟨hsame2, hjobs⟩
          refine Spec.bind (joinChunks_spec hs _ hjobs) ?_
          rintro r l3 ⟨hsame3, hr⟩
          have hsame := (hsame1.trans hsame2).trans hsame3
          cases r with
          | error e => exact Spec.pure ⟨hsame, _, rfl, by simp⟩
          | ok pieces =>
              obtain ⟨hfst, hpieces⟩ := hr pieces rfl
              refine Spec.pure ⟨hsame, _, rfl, ?_⟩
              rintro out ⟨⟩
              refine .inr ⟨hlt, pieces, ?_, hfst, hpieces⟩
              exact assemble_of_pairwise (by rw [hfst]; exact rangeOffsets_pairwise hcs)

theorem insertTask_spec {key : ChunkKey} {data : Bytes} (hkey : key ∈ env.keys)
    (hgood : env.good key data) (hjob : l.job = .insertTask key data) (hchild : l.child = none)
    (hlanded : l.landed = false) (hpushed : l.pushed = false) :
    Spec env l (insertTask cfg key data) fun _ l' => l.Same l' := by
  have hend (l' : Loc) (hsame : l.Same l')
      (hreason : l'.landed = true ∨ env.ioErr ∨ l'.lostJoin = true) :
      Spec env l' (fetch (.writesRemove key)) fun _ l'' => l.Same l'' :=
    ⟨⟨data, hsame.job.trans hjob, hreason⟩, fun _ _ => hsame⟩
  unfold insertTask
  refine Spec.call_bind ⟨hkey, hgood⟩ ⟨hjob, hchild, hlanded⟩ ?_ ?_
  · intro t
    refine Spec.fetch_bind trivial fun _ _ => ?_
    exact hend _ (.called _ _ _) (.inr (.inr (Loc.joined_lost _ _ rfl)))
  · rintro t v lc (⟨rfl, -⟩ | ⟨e, rfl, hio⟩)
    · refine Spec.bind (noteLocalInsert_spec hjob ?_ hpushed) ?_
      · simp [Loc.joined, Loc.spawned]
      · rintro _ l' rfl
        refine hend _ ⟨rfl, rfl, rfl, rfl, rfl⟩ (.inl ?_)
        simp [Loc.joined, Loc.spawned]
    · refine Spec.fetch_bind trivial fun _ _ => ?_
      exact hend _ (.called _ _ _) (.inr (.inl hio))

theorem clearLocalState_spec (hjob : l.job = .clearLocalState) (hsnap : l.snap = none) :
    Spec env l (clearLocalState cfg) fun _ l' => l' = l := by
  unfold clearLocalState
  refine Spec.fetch_bind trivial fun _ _ => ?_
  refine Spec.bind (clearAll_spec (by simp [fetchNext, hjob, Job.sweeps])) ?_
  rintro r l' ⟨rfl, counts, rfl⟩
  refine Spec.fetch_bind hjob fun _ _ => ?_
  refine Spec.fetch_bind hjob fun _ _ => ?_
  refine Spec.fetch_bind trivial fun _ _ => ?_
  refine Spec.fetch_bind hjob fun _ _ => ?_
  refine Spec.bind (rebuildLocalFromCache_spec hsnap) ?_
  rintro _ l' rfl
  exact Spec.pure rfl

theorem Loc.Quiet.init (j : Job) : ({ job := j } : Loc).Quiet := ⟨rfl, rfl, rfl⟩

/-- What is left to show when a job returns: nothing is held any more and the
value is worth what the job promises. -/
theorem Spec.finish {j : Job} {l' : Loc} {v : Val} (hsame : Loc.Same { job := j } l')
    (hval : env.valueOk l' j v) : Spec env l' (return v) ((discipline env).post j) :=
  Spec.pure ⟨hsame.job, hsame.quiet (.init j), hsame.snap, hval⟩

/-- Every job of a node keeps to the discipline. -/
theorem body_spec (j : Job) (hok : env.jobOk j) :
    Spec env { job := j } (body cfg j) ((discipline env).post j) := by
  cases j with
  | tryGet key =>
      refine Spec.bind (tryGet_spec rfl hok) ?_
      rintro r _ ⟨rfl, hr⟩
      exact Spec.finish (.refl _) ⟨r, rfl, hr⟩
  | tryGetRange key offset len =>
      refine Spec.bind (tryGetRange_spec rfl hok) ?_
      rintro r _ ⟨rfl, hr⟩
      exact Spec.finish (.refl _) ⟨r, rfl, hr⟩
  | tryGetIntoSlice key dstLen =>
      refine Spec.bind (tryGetIntoSlice_spec rfl hok) ?_
      rintro r _ ⟨rfl, hr⟩
      exact Spec.finish (.refl _) ⟨r, rfl, hr⟩
  | insert key data =>
      refine Spec.bind (insert_spec rfl rfl rfl hok.1 hok.2) ?_
      rintro r _ (⟨rfl, rfl⟩ | ⟨e, rfl, rfl, hio⟩)
      · exact Spec.finish ⟨rfl, rfl, rfl, rfl, rfl⟩ (.inl ⟨rfl, rfl⟩)
      · exact Spec.finish (.refl _) (.inr ⟨e, rfl, hio⟩)
  | remove key =>
      refine Spec.bind (remove_spec rfl rfl) ?_
      rintro r _ rfl
      exact Spec.finish (.refl _) trivial
  | reconcileWithDisk =>
      refine Spec.bind (reconcileWithDisk_spec rfl) ?_
      rintro r _ rfl
      exact Spec.finish (.refl _) trivial
  | clearAll =>
      refine Spec.bind (clearAll_spec rfl) ?_
      rintro r _ ⟨rfl, -⟩
      exact Spec.finish (.refl _) trivial
  | externalLoss name =>
      exact Spec.disk_bind rfl fun _ _ => Spec.finish (.refl _) trivial
  | fetchChunk mount blob offset n
  | fetchChunkOriginOnly mount blob offset n =>
      refine Spec.bind (fetchChunkInner_spec hok.1 hok.2 rfl (.init _)) ?_
      rintro r l' ⟨hsame, hr⟩
      exact Spec.finish hsame ⟨r, rfl, hr⟩
  | fetchChunkRange mount blob offset sub len n =>
      refine Spec.bind (fetchChunkRange_spec hok.1 hok.2 rfl (.init _)) ?_
      rintro r l' ⟨hsame, hr⟩
      exact Spec.finish hsame ⟨r, rfl, hr⟩
  | servePeerChunk key n waitMs =>
      refine Spec.bind (servePeerChunk_spec hok.1 hok.2 rfl (.init _)) ?_
      rintro r l' ⟨hsame, hr⟩
      exact Spec.finish hsame ⟨r, rfl, hr⟩
  | pullChunkFromPeerWait mount blob offset n peerId url addr waitMs =>
      refine Spec.bind (pullChunkFromPeerWait_spec hok.1 hok.2 rfl (.init _)) ?_
      rintro r l' ⟨hsame, hr⟩
      exact Spec.finish hsame ⟨r, rfl, hr⟩
  | fetchRange mount blob offset length fileSize =>
      refine Spec.bind (fetchRange_spec hok rfl) ?_
      rintro r l' ⟨hsame, hr⟩
      exact Spec.finish hsame hr
  | chunkTask mount blob offset start len n =>
      refine Spec.bind (chunkTask_spec hok.1 hok.2 rfl (.init _)) ?_
      rintro r l' ⟨hsame, hr⟩
      exact Spec.finish hsame ⟨r, rfl, hr⟩
  | prefetchTask mount blob offset n =>
      refine Spec.bind
        (Q := fun _ l' => Loc.Same { job := .prefetchTask mount blob offset n } l') ?_ ?_
      · refine Spec.bind (fetchChunkInner_spec hok.1 hok.2 rfl (.init _)) ?_
        rintro r l' ⟨hsame, -⟩
        exact Spec.pure hsame
      · rintro r l' hsame
        exact Spec.finish hsame trivial
  | insertTask key data =>
      refine Spec.bind (insertTask_spec hok.1 hok.2 rfl rfl rfl rfl) ?_
      rintro r l' hsame
      exact Spec.finish hsame trivial
  | insertReceivedChunk key data =>
      refine Spec.bind (spawnInsert_spec hok.1 hok.2 rfl) ?_
      rintro _ l' ⟨ch, rfl⟩
      exact Spec.finish ⟨rfl, rfl, rfl, rfl, rfl⟩ trivial
  | rebuildWork =>
      refine Spec.bind (rebuildWork_spec rfl rfl) ?_
      rintro r _ rfl
      exact Spec.finish (.refl _) trivial
  | bloomRebuildTick =>
      refine Spec.bind (Q := fun _ l' => Loc.Same { job := .bloomRebuildTick } l') ?_ ?_
      · refine Spec.call_bind trivial rfl (fun t => Spec.pure (.called _ _ _)) ?_
        intro t v lc _
        cases v
        case version n => exact ⟨trivial, fun _ _ => .called _ _ _⟩
        all_goals exact Spec.pure (.called _ _ _)
      · rintro r l' hsame
        exact Spec.finish hsame trivial
  | clearLocalState =>
      refine Spec.bind (clearLocalState_spec rfl rfl) ?_
      rintro r _ rfl
      exact Spec.finish (.refl _) trivial

end BlobCache.Node
