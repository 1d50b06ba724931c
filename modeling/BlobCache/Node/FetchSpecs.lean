import BlobCache.Node.DiskSpecs

/-!
The methods of the fetcher keep to the discipline: what a leader stores and
broadcasts, what a follower may conclude from what it hears, and that every
way out of a fetch gives a good chunk of the expected length or a reason.
-/

namespace BlobCache.Node

open Cache Conc

variable {cfg : NodeConfig} {env : Env cfg} {l : Loc}

/-- What a fetch leaves alone. -/
structure Loc.Same (l l' : Loc) : Prop where
  job : l'.job = l.job
  file : l'.file = l.file
  lead : l'.lead = l.lead
  rx : l'.rx = l.rx
  snap : l'.snap = l.snap

theorem Loc.Same.refl (l : Loc) : l.Same l := ⟨rfl, rfl, rfl, rfl, rfl⟩

theorem Loc.Same.trans {l l' l'' : Loc} (h : l.Same l') (h' : l'.Same l'') : l.Same l'' :=
  ⟨h'.job.trans h.job, h'.file.trans h.file, h'.lead.trans h.lead, h'.rx.trans h.rx,
    h'.snap.trans h.snap⟩

theorem Loc.Same.quiet {l l' : Loc} (h : l.Same l') (hq : l.Quiet) : l'.Quiet :=
  ⟨h.file.trans hq.file, h.lead.trans hq.lead, h.rx.trans hq.rx⟩

/-- Waiting for a job changes neither file, slot nor snapshot. -/
theorem Loc.Same.called (l : Loc) (h : Handle effect) (r : Option Val) :
    l.Same ((l.spawned h).joined h r) := ⟨rfl, rfl, rfl, rfl, rfl⟩

theorem Loc.joined_lost (l : Loc) (h : Handle effect) (hblocking : Job.async h.job = false) :
    (l.joined h none).lostJoin = true := by
  simp [Loc.joined, hblocking]

theorem spawnInsert_spec {key : ChunkKey} {data : Bytes} (hkey : key ∈ env.keys)
    (hgood : env.good key data) (hlen : l.job.expectedLen = some data.length) :
    Spec env l (spawnInsert key data) fun _ l' =>
      ∃ ch, l' = { l with stored := some data, child := ch } := by
  unfold spawnInsert
  refine Spec.fetch_bind ⟨hgood, hkey, hlen⟩ fun _ _ => ?_
  refine Spec.spawn_bind ⟨hkey, hgood⟩ ⟨hlen, rfl⟩ fun t => ?_
  exact Spec.pure ⟨some t, rfl⟩

/-- A leader that asks the origin. -/
theorem fetchBlobDirect_spec {mount : MountConfig} {blob : String} {key : ChunkKey} {n : Nat}
    (hnet : env.net) (hkey : key ∈ env.keys) (hlen : l.job.expectedLen = some n)
    (hlead : l.lead = some key) (hasked : l.asked = false) :
    Spec env l (fetchBlobDirect cfg mount blob key n) fun r l' =>
      ∃ st ch, l' = { l with asked := true, stored := st, child := ch } ∧
        match r with
        | .ok d => env.good key d ∧ d.length = n ∧ st = some d
        | .error _ => env.originErr ∨ env.wrongLen key n := by
  unfold fetchBlobDirect
  refine Spec.fetch_bind ⟨hnet, hlead, hasked⟩ fun _ _ => ?_
  refine Spec.fetch_bind ⟨hnet, hlead, rfl⟩ fun reply hreply => ?_
  cases reply with
  | error e => exact Spec.pure ⟨l.stored, l.child, rfl, .inl hreply⟩
  | ok data =>
      dsimp only
      split
      · rename_i hne
        exact Spec.pure ⟨l.stored, l.child, rfl, .inr ⟨data, hreply, hne⟩⟩
      · rename_i heq
        have heq : data.length = n := not_not.mp heq
        refine Spec.bind (spawnInsert_spec hkey hreply (hlen.trans (by rw [heq]))) ?_
        rintro _ l' ⟨ch, rfl⟩
        refine Spec.fetch_bind trivial fun _ _ => ?_
        exact Spec.pure ⟨some data, ch, rfl, hreply, heq, rfl⟩

/-- Asking a peer: a chunk that it returns is good and of the expected length. -/
def Env.PeerSpec (env : Env cfg) (l : Loc) (key : ChunkKey) (n : Nat) (r : Option Bytes)
    (l' : Loc) : Prop :=
  ∃ st ch, l' = { l with stored := st, child := ch } ∧
    ∀ d, r = some d → env.good key d ∧ d.length = n ∧ env.peerHit

theorem Env.PeerSpec.none (env : Env cfg) (l : Loc) (key : ChunkKey) (n : Nat) :
    env.PeerSpec l key n none l :=
  ⟨l.stored, l.child, rfl, by simp⟩

theorem Env.PeerSpec.again {key : ChunkKey} {n : Nat} {r : Option Bytes} {st : Option Bytes}
    {ch : Option Nat} {l' : Loc}
    (h : env.PeerSpec { l with stored := st, child := ch } key n r l') :
    env.PeerSpec l key n r l' := by
  obtain ⟨st', ch', rfl, hr⟩ := h
  exact ⟨st', ch', rfl, hr⟩

theorem askPeer_spec {peer : NodeInfo} {addr : Option Bytes} {key : ChunkKey} {n waitMs : Nat}
    {wasYes : Bool} (hnet : env.net) (hkey : key ∈ env.keys)
    (hlen : l.job.expectedLen = some n) :
    Spec env l (askPeer cfg peer addr key n wasYes waitMs) (env.PeerSpec l key n) := by
  unfold askPeer
  refine Spec.fetch_bind ⟨hnet, hkey⟩ fun reply hreply => ?_
  cases reply with
  | error e =>
      cases e
      case notFound =>
        dsimp only
        split
        · exact Spec.index_bind trivial fun _ => Spec.pure (.none env l key n)
        · exact Spec.pure (.none env l key n)
      all_goals exact Spec.pure (.none env l key n)
  | ok data =>
      dsimp only
      obtain ⟨hgood, hhit⟩ := hreply data rfl
      split
      · exact Spec.pure (.none env l key n)
      · rename_i heq
        have heq : data.length = n := not_not.mp heq
        have hdata : l.job.expectedLen = some data.length := hlen.trans (by rw [heq])
        have hdone : ∀ d, some data = some d → env.good key d ∧ d.length = n ∧ env.peerHit := by
          rintro d ⟨⟩
          exact ⟨hgood, heq, hhit⟩
        split
        · refine Spec.bind (spawnInsert_spec hkey hgood hdata) ?_
          rintro _ l' ⟨ch, rfl⟩
          exact Spec.fetch_bind trivial fun _ _ => Spec.pure ⟨some data, ch, rfl, hdone⟩
        · refine Spec.fetch_bind ⟨hgood, hkey, hdata⟩ fun _ _ => ?_
          exact Spec.fetch_bind trivial fun _ _ =>
            Spec.pure ⟨l.stored, l.child, rfl, hdone⟩

theorem tryPeerFetch_spec {peer : NodeInfo} {key : ChunkKey} {n waitMs : Nat} {wasYes : Bool}
    (hnet : env.net) (hkey : key ∈ env.keys) (hlen : l.job.expectedLen = some n) :
    Spec env l (tryPeerFetch cfg peer key n wasYes waitMs) (env.PeerSpec l key n) := by
  unfold tryPeerFetch
  split
  · split
    · exact Spec.pure (.none env l key n)
    · exact askPeer_spec hnet hkey hlen
  · split
    · exact Spec.pure (.none env l key n)
    · exact askPeer_spec hnet hkey hlen

theorem tryPeers_spec {key : ChunkKey} {n : Nat} (hnet : env.net) (hkey : key ∈ env.keys)
    (peers : List (NodeInfo × Bool)) (hlen : l.job.expectedLen = some n) :
    Spec env l (tryPeers cfg key n peers) (env.PeerSpec l key n) := by
  induction peers generalizing l with
  | nil => exact Spec.pure (.none env l key n)
  | cons p peers ih =>
      obtain ⟨peer, wasYes⟩ := p
      unfold tryPeers
      refine Spec.bind (tryPeerFetch_spec hnet hkey hlen) ?_
      rintro r l' ⟨st, ch, rfl, hr⟩
      cases r with
      | some data => exact Spec.pure ⟨st, ch, rfl, hr⟩
      | none =>
          have hrest := ih (l := { l with stored := st, child := ch }) hlen
          exact hrest.mono fun _ _ h => h.again

theorem askStampedeLeader_spec {key : ChunkKey} {n yesCount : Nat} {alive : List NodeInfo}
    (hnet : env.net) (hkey : key ∈ env.keys) (hlen : l.job.expectedLen = some n) :
    Spec env l (askStampedeLeader cfg key n yesCount alive) (env.PeerSpec l key n) := by
  unfold askStampedeLeader
  split
  · dsimp only
    split
    · split
      · exact tryPeerFetch_spec hnet hkey hlen
      · exact Spec.pure (.none env l key n)
    · exact Spec.pure (.none env l key n)
  · exact Spec.pure (.none env l key n)

theorem askPeers_spec {key : ChunkKey} {n : Nat} (hnet : env.net) (hkey : key ∈ env.keys)
    (hlen : l.job.expectedLen = some n) :
    Spec env l (askPeers cfg key n) (env.PeerSpec l key n) := by
  unfold askPeers
  refine Spec.fetch_bind trivial fun alive _ => ?_
  refine Spec.index_bind trivial fun candidates => ?_
  refine Spec.bind (tryPeers_spec hnet hkey _ hlen) ?_
  rintro r l' ⟨st, ch, rfl, hr⟩
  cases r with
  | some data => exact Spec.pure ⟨st, ch, rfl, hr⟩
  | none =>
      have hstampede : Spec env { l with stored := st, child := ch }
          (askStampedeLeader cfg key n candidates.yes.length alive) _ :=
        askStampedeLeader_spec hnet hkey hlen
      exact hstampede.mono fun _ _ h => h.again

/-- A leader ends with a good chunk, stored or from a peer, or with a reason. -/
theorem doFetch_spec {mount : MountConfig} {blob : String} {key : ChunkKey} {n : Nat}
    {bypass : Bool} (hnet : env.net) (hkey : key ∈ env.keys)
    (hlen : l.job.expectedLen = some n) (hlead : l.lead = some key) (hasked : l.asked = false) :
    Spec env l (doFetch cfg mount blob key n bypass) fun r l' =>
      ∃ a st ch, l' = { l with asked := a, stored := st, child := ch } ∧
        match r with
        | .ok d => env.good key d ∧ d.length = n ∧ (st = some d ∨ env.peerHit)
        | .error _ => env.originErr ∨ env.wrongLen key n := by
  have hpeers : Spec env l (if bypass then return none else askPeers cfg key n)
      (env.PeerSpec l key n) := by
    split
    · exact Spec.pure (.none env l key n)
    · exact askPeers_spec hnet hkey hlen
  unfold doFetch
  refine Spec.bind hpeers ?_
  rintro r l' ⟨st, ch, rfl, hr⟩
  cases r with
  | some data =>
      obtain ⟨hgood, hn, hhit⟩ := hr data rfl
      exact Spec.pure ⟨l.asked, st, ch, rfl, hgood, hn, .inr hhit⟩
  | none =>
      have hblob : Spec env { l with stored := st, child := ch }
          (fetchBlobDirect cfg mount blob key n) _ :=
        fetchBlobDirect_spec hnet hkey hlen hlead hasked
      refine hblob.mono ?_
      rintro r l' ⟨st', ch', hl, hr'⟩
      refine ⟨true, st', ch', hl, ?_⟩
      cases r with
      | ok d => exact ⟨hr'.1, hr'.2.1, .inl hr'.2.2⟩
      | error e => exact hr'

theorem leadFetch_spec {mount : MountConfig} {blob : String} {key : ChunkKey} {n : Nat}
    {bypass : Bool} (hnet : env.net) (hkey : key ∈ env.keys)
    (hlen : l.job.expectedLen = some n) (hlead : l.lead = some key) (hasked : l.asked = false) :
    Spec env l (leadFetch cfg mount blob key n bypass) fun r l' =>
      { l with lead := none }.Same l' ∧ env.fetchedOk l' key n r := by
  unfold leadFetch
  refine Spec.bind (doFetch_spec hnet hkey hlen hlead hasked) ?_
  rintro r l' ⟨a, st, ch, rfl, hr⟩
  cases r with
  | ok d =>
      refine Spec.fetch_bind ⟨hlead, hr.1, hr.2.2⟩ fun _ _ => ?_
      exact Spec.pure ⟨⟨rfl, rfl, rfl, rfl, rfl⟩, hr.1, hr.2.1⟩
  | error e =>
      have hreason : env.originErr ∨ ∃ m, l.job.expectedLen = some m ∧ env.wrongLen key m :=
        hr.imp_right fun hw => ⟨n, hlen, hw⟩
      refine Spec.fetch_bind ⟨hlead, hreason⟩ fun _ _ => ?_
      exact Spec.pure ⟨⟨rfl, rfl, rfl, rfl, rfl⟩, hr.imp_right .inl⟩

theorem retryFromCache_spec {key : ChunkKey} {n : Nat} (hkey : key ∈ env.keys)
    (hlen : l.job.expectedLen = some n) :
    Spec env l (retryFromCache key n) fun r l' =>
      l.Same l' ∧ l'.heard = l.heard ∧ ∀ d, r = .ok d → env.good key d ∧ d.length = n := by
  unfold retryFromCache
  refine Spec.call_bind hkey (by simp [Env.spawnPre, hlen]) ?_ ?_
  · intro t
    exact Spec.pure ⟨.called _ _ _, rfl, by simp⟩
  · rintro t v lc ⟨r, rfl, hr⟩
    cases r with
    | none => exact Spec.pure ⟨.called _ _ _, rfl, by simp⟩
    | some b =>
        dsimp only
        split
        · rename_i heq
          refine Spec.pure ⟨.called _ _ _, rfl, ?_⟩
          rintro d ⟨⟩
          exact ⟨hr b rfl, heq⟩
        · exact Spec.pure ⟨.called _ _ _, rfl, by simp⟩

/-- A follower ends with the leader's chunk, or has heard of a failure. -/
theorem followLeader_spec {key : ChunkKey} {slot n : Nat} (hkey : key ∈ env.keys)
    (hlen : l.job.expectedLen = some n) (hrx : l.rx = some (key, slot)) :
    Spec env l (followLeader key slot n) fun r l' =>
      { l with rx := none }.Same l' ∧ env.fetchedOk l' key n r := by
  unfold followLeader
  refine Spec.fetch_bind ⟨⟨key, hrx⟩, by simp⟩ fun heard hheard => ?_
  have hnext : fetchNext l (.recv slot false) heard =
      { l with rx := none, heard := some (key, slot, heard) } := by
    simp [fetchNext, hrx]
  have hretry (hfailed : heard.failed = true) :
      Spec env { l with rx := none, heard := some (key, slot, heard) } (retryFromCache key n)
        fun r l' => { l with rx := none }.Same l' ∧ env.fetchedOk l' key n r := by
    refine Spec.mono (retryFromCache_spec hkey hlen) ?_
    rintro r l' ⟨hsame, hl', hr⟩
    refine ⟨⟨hsame.job, hsame.file, hsame.lead, hsame.rx, hsame.snap⟩, ?_⟩
    cases r with
    | ok d => exact hr d rfl
    | error e => exact .inr (.inr (.inr ⟨slot, heard, hl', hfailed⟩))
  rw [hnext]
  cases heard with
  | closed => exact hretry rfl
  | elapsed => exact hretry rfl
  | message msg =>
      cases msg with
      | error e =>
          exact Spec.pure
            ⟨⟨rfl, rfl, rfl, rfl, rfl⟩, .inr (.inr (.inr ⟨slot, _, rfl, rfl⟩))⟩
      | ok data =>
          have hgood : env.good key data := hheard key hrx data rfl
          dsimp only
          split
          · rename_i hne
            exact Spec.pure ⟨⟨rfl, rfl, rfl, rfl, rfl⟩, .inr (.inl ⟨data, hgood, hne⟩)⟩
          · rename_i heq
            exact Spec.pure ⟨⟨rfl, rfl, rfl, rfl, rfl⟩, hgood, not_not.mp heq⟩

theorem ofLength_eq_some {n : Nat} {hit : Option Bytes} {d : Bytes} :
    ofLength n hit = some d ↔ hit = some d ∧ d.length = n := by
  simp [ofLength, Option.filter_eq_some_iff]

theorem ofLength_good {key : ChunkKey} {n : Nat} {hit : Option Bytes}
    (hhit : ∀ d, hit = some d → env.good key d) :
    ∀ d, ofLength n hit = some d → env.good key d ∧ d.length = n := by
  intro d hd
  obtain ⟨hsome, hlen⟩ := ofLength_eq_some.mp hd
  exact ⟨hhit d hsome, hlen⟩

theorem inflightWritesHit_spec (key : ChunkKey) (n : Nat) :
    Spec env l (inflightWritesHit key n) fun r l' =>
      l' = l ∧ ∀ d, r = some d → env.good key d ∧ d.length = n := by
  unfold inflightWritesHit
  exact Spec.fetch_bind trivial fun hit hhit => Spec.pure ⟨rfl, ofLength_good hhit⟩

theorem peerLruHit_spec (key : ChunkKey) (n : Nat) :
    Spec env l (peerLruHit key n) fun r l' =>
      l' = l ∧ ∀ d, r = some d → env.good key d ∧ d.length = n := by
  unfold peerLruHit
  exact Spec.fetch_bind trivial fun hit hhit => Spec.pure ⟨rfl, ofLength_good hhit⟩

theorem cacheHit_spec {key : ChunkKey} {n : Nat} (hkey : key ∈ env.keys)
    (hlen : l.job.expectedLen = some n) :
    Spec env l (cacheHit key n) fun r l' =>
      l.Same l' ∧
        match r with
        | .ok (some d) => env.good key d ∧ d.length = n
        | .ok none => True
        | .error _ => l'.lostJoin = true := by
  unfold cacheHit
  refine Spec.call_bind hkey (by simp [Env.spawnPre, hlen]) ?_ ?_
  · intro t
    exact Spec.pure ⟨.called _ _ _, Loc.joined_lost _ _ rfl⟩
  · rintro t v lc ⟨r, rfl, hr⟩
    cases r with
    | none => exact Spec.pure ⟨.called _ _ _, trivial⟩
    | some b =>
        have hgood : env.good key b := hr b rfl
        dsimp only
        split
        · rename_i heq
          exact Spec.pure ⟨.called _ _ _, hgood, heq⟩
        · rename_i hne
          refine Spec.call_bind hkey ⟨n, hlen, b, hgood, hne⟩ ?_ ?_
          · intro t'
            exact Spec.pure ⟨.trans (.called _ _ _) (.called _ _ _), trivial⟩
          · intro t' v' lc' _
            exact Spec.pure ⟨.trans (.called _ _ _) (.called _ _ _), trivial⟩

/-- The whole of `fetch_chunk_inner`. -/
theorem fetchChunkInner_spec {mount : MountConfig} {blob : String} {offset n : Nat}
    {bypass : Bool} (hnet : env.net)
    (hkey : (⟨mount.name, blob, offset⟩ : ChunkKey) ∈ env.keys)
    (hlen : l.job.expectedLen = some n) (hquiet : l.Quiet) :
    Spec env l (fetchChunkInner cfg mount blob offset n bypass) fun r l' =>
      l.Same l' ∧ env.fetchedOk l' ⟨mount.name, blob, offset⟩ n r := by
  unfold fetchChunkInner
  refine Spec.bind (inflightWritesHit_spec _ n) ?_
  rintro r _ ⟨rfl, hr⟩
  cases r with
  | some b => exact Spec.pure ⟨.refl _, hr b rfl⟩
  | none =>
      refine Spec.bind (peerLruHit_spec _ n) ?_
      rintro r _ ⟨rfl, hr⟩
      cases r with
      | some b => exact Spec.pure ⟨.refl _, hr b rfl⟩
      | none =>
          refine Spec.bind (cacheHit_spec hkey hlen) ?_
          rintro r l1 ⟨hsame, hr⟩
          have hq := hsame.quiet hquiet
          have hlen1 : l1.job.expectedLen = some n := by rw [hsame.job]; exact hlen
          match r, hr with
          | .error e, hr => exact Spec.pure ⟨hsame, .inr (.inr (.inl hr))⟩
          | .ok (some b), hr => exact Spec.pure ⟨hsame, hr⟩
          | .ok none, _ =>
              refine Spec.fetch_bind ⟨hq.lead, hq.rx, hkey, by simp [hlen1]⟩ fun role _ => ?_
              cases role with
              | follower slot =>
                  refine Spec.mono (followLeader_spec hkey hlen1 rfl) ?_
                  rintro r l' ⟨hs, hr'⟩
                  refine ⟨hsame.trans ⟨hs.job, hs.file, hs.lead, ?_, hs.snap⟩, hr'⟩
                  rw [hq.rx]
                  exact hs.rx
              | leader =>
                  refine Spec.mono (leadFetch_spec hnet hkey hlen1 rfl rfl) ?_
                  rintro r l' ⟨hs, hr'⟩
                  refine ⟨hsame.trans ⟨hs.job, hs.file, ?_, hs.rx, hs.snap⟩, hr'⟩
                  rw [hq.lead]
                  exact hs.lead

end BlobCache.Node
