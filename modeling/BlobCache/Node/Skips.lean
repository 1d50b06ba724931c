import BlobCache.Node.Kept
import BlobCache.Node.Pull

/-!
Skipped pulls. The peer leaves the node out when it holds a version that is not
older than the advertised one. Within one lifetime of the node this loses
nothing, as long as the node itself does not lose what it has noted; but versions
start again when the node restarts, and the peer's copy of the filter stays.
-/

namespace BlobCache.Node

open Cache Conc

variable {cfg : NodeConfig} {pcfg : PeerIndexConfig}
  {H : State → Event (machine cfg) → Prop} {s : PullSystem cfg}


/-- No store lowers the advertised version. -/
def storesAscend (s : State) : Event (machine cfg) → Prop
  | .op _ (.index (.setBloomVersion v)) _ => s.index.meBloomVersion ≤ v
  | _ => True

/-- `note_local_insert` has returned for the chunk. -/
def NotedAt (c : Config (machine cfg)) (k : ChunkKey) : Prop :=
  ∃ p d, c.job p = some (Job.insertTask k d) ∧ p ∈ c.state.index.noted ∧
    ∀ v, ¬ AnnouncingAt c p v

/-- A step that neither loses the chunk, nor a pending digest, nor the advertised
version. -/
structure Orderly (k : ChunkKey) (s : State) (e : Event (machine cfg)) : Prop where
  allowed : (anyEnv cfg).allowed s e
  drains : drainsCovered s e
  keeps : keepsLive k s e
  ascends : storesAscend s e

/-- A thread that has noted its chunk keeps having done so. -/
theorem noted_of_stepped {c c' : Config (machine cfg)} {e : Event (machine cfg)}
    (h : c.Stepped e c') {p : Nat} (hp : p ∈ c.state.index.noted) : p ∈ c'.state.index.noted := by
  rcases index_of_stepped h with ⟨hsame, -⟩ | ⟨t, th, o, k, ch, r, -, -, -, hex, -⟩
  · rw [hsame]
    exact hp
  · cases exec_moved hex with
    | bump ho hversion hme hnoted =>
        rcases hnoted with hnoted | hnoted <;> rw [hnoted]
        · exact hp
        · exact List.mem_cons_of_mem _ hp
    | announce v hindex =>
        rw [hindex]
        exact hp
    | rest ho hother hversion hbloom hme hnoted =>
        rw [hnoted]
        exact hp

theorem noted_of_reach {G : State → Event (machine cfg) → Prop} {c c' : Config (machine cfg)}
    (h : Config.Reach G c c') {p : Nat} (hp : p ∈ c.state.index.noted) :
    p ∈ c'.state.index.noted := by
  induction h with
  | refl => exact hp
  | tail _ hstep _ ih => exact noted_of_stepped (Config.stepped hstep) ih

/-- A thread notes its chunk in a change of the filter. -/
theorem noter_of_stepped {c c' : Config (machine cfg)} {e : Event (machine cfg)} {p : Nat}
    (h : c.Stepped e c') (hp : p ∈ c'.state.index.noted) (hnew : p ∉ c.state.index.noted) :
    ∃ (th : Thread effect) (o : Op) (k : o.Resp → NodeM Val) (ch : Choice) (r : o.Resp),
      c.threads[p]? = some th ∧ th.status = .running (.op o k) ∧ o.bumps = true ∧
      exec cfg p o ch c.state = some (r, c'.state) ∧
      c'.threads[p]? = some { th with status := .running (k r) } ∧
      c'.state.index.version = saturatingAdd c.state.index.version 1 := by
  rcases index_of_stepped h with ⟨hsame, -⟩ | ⟨t, th, o, k, ch, r, hth, hrun, -, hex, hth'⟩
  · rw [hsame] at hp
    exact absurd hp hnew
  · cases exec_moved hex with
    | bump ho hversion hme hnoted =>
        rcases hnoted with hnoted | hnoted <;> rw [hnoted] at hp
        · exact absurd hp hnew
        · obtain rfl : p = t := (List.mem_cons.mp hp).resolve_right hnew
          exact ⟨th, o, k, ch, r, hth, hrun, ho, hex, hth', hversion⟩
    | announce v hindex =>
        rw [hindex] at hp
        exact absurd hp hnew
    | rest ho hother hversion hbloom hme hnoted =>
        rw [hnoted] at hp
        exact absurd hp hnew

/-- Whoever has noted a chunk is a thread. -/
theorem job_of_noted {G : State → Event (machine cfg) → Prop} {c : Config (machine cfg)}
    (h : Config.Reach G (.init (State.new cfg)) c) {p : Nat} (hp : p ∈ c.state.index.noted) :
    ∃ j, c.job p = some j := by
  induction h with
  | refl => cases hp
  | @tail c1 c2 l e hreach hstep hg ih =>
      by_cases hold : p ∈ c1.state.index.noted
      · obtain ⟨j, hj⟩ := ih hold
        exact ⟨j, Config.job_of_step hstep hj⟩
      · obtain ⟨th, o, k, ch, r, -, -, -, -, hth', -⟩ :=
          noter_of_stepped (Config.stepped hstep) hp hold
        exact ⟨th.job, by rw [Config.job, hth']; rfl⟩

/-- What noting a chunk leads to: since the configuration `c0`, a thread that has
noted its chunk is about to store a newer version, or one is advertised. -/
def NotedSince (c0 c : Config (machine cfg)) (p : Nat) : Prop :=
  p ∈ c0.state.index.noted ∨ (∃ v, c0.state.index.version < v ∧ AnnouncingAt c p v) ∨
    c0.state.index.version < c.state.index.meBloomVersion

theorem NotedSince.step {c0 c c' : Config (machine cfg)} {e : Event (machine cfg)} {p : Nat}
    (h : NotedSince c0 c p) (hstep : c.Stepped e c') (hascends : storesAscend c.state e) :
    NotedSince c0 c' p := by
  have hme : c.state.index.meBloomVersion ≤ c'.state.index.meBloomVersion := by
    rcases index_of_stepped hstep with ⟨hsame, -⟩ | ⟨t, th, o, k, ch, r, -, -, rfl, hex, -⟩
    · rw [hsame]
    · cases exec_moved hex with
      | bump ho hversion hme hnoted => rw [hme]
      | announce v hindex =>
          rw [hindex]
          exact hascends
      | rest ho hother hversion hbloom hme hnoted => rw [hme]
  rcases h with hold | ⟨v, hv, hannouncing⟩ | hnew
  · exact .inl hold
  · rcases hannouncing.step hstep with hstays | ⟨ch, rfl⟩
    · exact .inr (.inl ⟨v, hv, hstays⟩)
    · -- The store itself.
      right; right
      rcases index_of_stepped hstep with ⟨-, hnone⟩ | ⟨t, th, o, k, ch', r, -, -, heq, hex, -⟩
      · exact absurd rfl (hnone _ _ _)
      · cases heq
        have hstored := congrArg (fun x => x.2.meBloomVersion) (exec_index hex).1
        exact hv.trans_eq hstored
  · exact .inr (.inr (hnew.trans_le hme))

theorem notedSince_of_reach {G : State → Event (machine cfg) → Prop}
    {c0 c : Config (machine cfg)} (hG : ∀ s e, G s e → storesAscend s e)
    (h0 : Config.Reach G (.init (State.new cfg)) c0) (h : Config.Reach G c0 c)
    (hmax : c.state.index.version < u64Max) {p : Nat} (hp : p ∈ c.state.index.noted) :
    NotedSince c0 c p := by
  induction h with
  | refl => exact .inl hp
  | @tail c1 c2 l e hreach hstep hg ih =>
      have hstepped := Config.stepped hstep
      have hle := (version_le_of_reach hreach (version_bound h0)).1
      have hlast := (version_le_of_reach (.tail .refl hstep hg) (version_bound (h0.trans hreach))).1
      by_cases hold : p ∈ c1.state.index.noted
      · exact (ih (hlast.trans_lt hmax) hold).step hstepped (hG _ _ hg)
      · -- The thread notes its chunk in this step, and has the new version to store.
        obtain ⟨th, o, k, ch, r, hth, hrun, ho, hex, hth', hversion⟩ :=
          noter_of_stepped hstepped hp hold
        have hk := (hooked_run (.init _ _) (h0.trans hreach) p th _ hth trivial hrun).1
        refine .inr (.inl ⟨c2.state.index.version, ?_, _, _, hth', rfl,
          announces_of_bump hex ho hk⟩)
        rw [hversion]
        exact hle.trans_lt (lt_saturatingAdd (hlast.trans_lt hmax))

/-- The filter that the peer holds, when it skips the node. -/
theorem Linked.held_of_skip (h : Linked H s) {v : Nat} (hv : v ≠ 0)
    (hskip : pullSkips s.peer cfg.meId v = true) :
    ∃ m, s.held = some m ∧ v ≤ m.index.version := by
  have hle : v ≤ (s.peer.remoteVersion cfg.meId).getD 0 := by
    simpa [pullSkips, hv] using hskip
  rw [PeerIndex.remoteVersion, h.remote] at hle
  cases hheld : s.held with
  | none =>
      rw [hheld] at hle
      exact absurd (Nat.le_zero.mp hle) hv
  | some m =>
      rw [hheld] at hle
      exact ⟨m, rfl, hle⟩

/-- Skipping a pull loses nothing within a lifetime: what was noted when the node
advertised the version is in the filter that the peer holds, as long as the node
does not lose the chunk, a pending digest or a version. -/
theorem skipped_pull_sound (hbits : cfg.bloomBits < 2 ^ 64) {k : ChunkKey}
    (hrun : Run (PullSystem.step pcfg) (nodeSteps (Orderly k)) (.new cfg pcfg) s)
    {a : Moment cfg} (hpull : s.pull = .checking a) (hne : a.index.meBloomVersion ≠ 0)
    (hskip : pullSkips s.peer cfg.meId a.index.meBloomVersion = true)
    (hlife : ∀ m, s.held = some m → m.life = a.life) (hmax : a.index.version < u64Max)
    (hnoted : NotedAt a.node k) :
    ∃ r, s.peer.remote.get? cfg.meId = some r ∧
      r.bloom.contains (keyDigest cfg.sha256 k) = true := by
  have hlinked := linked_run hbits hrun
  obtain ⟨m, hheld, hle⟩ := hlinked.held_of_skip hne hskip
  obtain ⟨p, d, hjob, hp, hquiet⟩ := hnoted
  have hm := hlinked.held m hheld
  have ha := hlinked.pull a (by rw [hpull]; rfl)
  have hcontains (hjobm : m.node.job p = some (Job.insertTask k d))
      (hpm : p ∈ m.index.noted) : m.index.bloom.contains (keyDigest cfg.sha256 k) = true :=
    noted_key_kept (fun _ _ h => ⟨h.allowed, h.drains, h.keeps⟩) (hlinked.reach m hm) hjobm hpm
  refine ⟨⟨m.index.version, m.index.bloom⟩, ?_, ?_⟩
  · rw [hlinked.remote, hheld]
    rfl
  · rcases hlinked.comparable hm ha (hlife m hheld) with hreach | hreach
    · -- The filter was served before the record was advertised.
      rcases notedSince_of_reach (fun _ _ h => h.ascends) (hlinked.reach m hm) hreach hmax hp with
        hold | ⟨v, -, hannouncing⟩ | hnew
      · obtain ⟨j, hj⟩ := job_of_noted (hlinked.reach m hm) hold
        have hsame := (Config.job_of_reach hreach hj).symm.trans hjob
        exact hcontains (hj.trans hsame) hold
      · exact absurd hannouncing (hquiet v)
      · exact absurd hle (Nat.not_le_of_lt hnew)
    · exact hcontains (Config.job_of_reach hreach hjob) (noted_of_reach hreach hp)

def Job.stores : Job → Bool
  | .insertReceivedChunk _ _ => true
  | _ => false

theorem Job.stores_ok (j : Job) (hj : j.stores = true) : (anyEnv sampleConfig).jobOk j := by
  cases j with
  | insertReceivedChunk key data => exact ⟨trivial, trivial⟩
  | _ => cases hj

def keepsGate (k : ChunkKey) (s : State) : Event (machine sampleConfig) → Bool
  | .op t (.disk o) c =>
      let after := (s.disk.exec sampleConfig.disk t (Choice.disk c) o).2.inner.entries.keys
      decide (k ∈ s.disk.inner.entries.keys → k ∈ after) &&
        match o with
        | .insertSection key _ => decide (key ∈ after)
        | _ => true
  | _ => true

theorem keepsLive_of_gate {k : ChunkKey} {s : State} {e : Event (machine sampleConfig)}
    (h : keepsGate k s e = true) : keepsLive k s e := by
  cases e with
  | op t o c =>
      cases o with
      | disk o =>
          simp only [keepsGate, Bool.and_eq_true, decide_eq_true_eq] at h
          rintro (hlive | ⟨n, rfl⟩)
          · exact h.1 hlive
          · exact of_decide_eq_true h.2
      | _ => trivial
  | _ => trivial

def ascendGate (s : State) : Event (machine sampleConfig) → Bool
  | .op _ (.index (.setBloomVersion v)) _ => decide (s.index.meBloomVersion ≤ v)
  | _ => true

theorem storesAscend_of_gate {s : State} {e : Event (machine sampleConfig)}
    (h : ascendGate s e = true) : storesAscend s e := by
  cases e with
  | op t o c =>
      cases o with
      | index o =>
          cases o with
          | setBloomVersion v =>
              have hle := of_decide_eq_true h
              exact hle
          | _ => trivial
      | _ => trivial
  | _ => trivial

def orderlyGate (k : ChunkKey) (s : PullSystem sampleConfig) : PullLabel sampleConfig → Bool
  | .node l => (s.now.node.step l).all fun ec =>
      gate Job.stores (fun _ _ => true) s.now.node.state ec.1 &&
        swapsAlone s.now.node.state ec.1 && keepsGate k s.now.node.state ec.1 &&
        ascendGate s.now.node.state ec.1
  | _ => true

theorem nodeSteps_of_gate (k : ChunkKey) (s : PullSystem sampleConfig)
    (l : PullLabel sampleConfig) (h : orderlyGate k s l = true) : nodeSteps (Orderly k) s l := by
  cases l with
  | node l =>
      intro e c hstep
      simp only [orderlyGate, hstep, Option.all_some, Bool.and_eq_true] at h
      obtain ⟨⟨⟨hallowed, halone⟩, hkeeps⟩, hascends⟩ := h
      exact ⟨gate_allowed _ _ Job.stores_ok (fun _ _ _ => trivial) _ _ hallowed,
        drainsCovered_of_swapsAlone halone, keepsLive_of_gate hkeeps,
        storesAscend_of_gate hascends⟩
  | _ => trivial

/-- The peer is about to skip the node, whose record is of a moment at which the
chunk was live and its task, thread 1, had ended. -/
def skipsNoted (k : ChunkKey) (a : Moment sampleConfig) (s : PullSystem sampleConfig) : Bool :=
  decide (a.index.meBloomVersion ≠ 0) &&
    pullSkips s.peer sampleConfig.meId a.index.meBloomVersion &&
    decide (k ∈ a.node.state.disk.inner.entries.keys) &&
    (a.node.job 1).any (fun j : Job => decide (j = .insertTask k [1, 2, 3, 4])) &&
    decide (1 ∈ a.index.noted) && a.node.threads[1]?.any Thread.finished

theorem skipsNoted_spec {k : ChunkKey} {a : Moment sampleConfig} {s : PullSystem sampleConfig}
    (h : skipsNoted k a s = true) :
    a.index.meBloomVersion ≠ 0 ∧
      pullSkips s.peer sampleConfig.meId a.index.meBloomVersion = true ∧
      a.node.state.live k ∧ NotedAt a.node k := by
  simp only [skipsNoted, Bool.and_eq_true, decide_eq_true_eq] at h
  obtain ⟨⟨⟨⟨⟨hne, hskip⟩, hlive⟩, hjob⟩, hnoted⟩, hfinished⟩ := h
  obtain ⟨j, hj, heq⟩ := Option.any_eq_true _ _ |>.mp hjob
  rw [of_decide_eq_true heq] at hj
  refine ⟨hne, hskip, hlive, 1, _, hj, hnoted, ?_⟩
  rintro v ⟨th, p, hth, hp, -⟩
  simp [hth, Thread.finished, hp] at hfinished

/-- The pass has a record with the property. -/
def onRecord (p : Moment cfg → PullSystem cfg → Bool) (s : PullSystem cfg) : Bool :=
  match s.pull with
  | .checking a => p a s
  | _ => false

theorem onRecord_spec {p : Moment cfg → PullSystem cfg → Bool} (h : onRecord p s = true) :
    ∃ a, s.pull = .checking a ∧ p a s = true := by
  unfold onRecord at h
  split at h
  · rename_i a hpull
    exact ⟨a, hpull, h⟩
  · cases h

/-- Two chunks are stored and the peer pulls the filter; then a record from
before the second chunk arrives. -/
def lateRecord : List (PullLabel sampleConfig) :=
  storeChunk 0 0 ++ storeChunk 1 3 ++
    [.begin 0, .check, .serve, .ingest, .begin (storeChunk 1 3).length]

def lateSkip (a : Moment sampleConfig) (s : PullSystem sampleConfig) : Bool :=
  skipsNoted (sampleKey 0) a s && decide (a.index.version < u64Max) &&
    s.held.all fun m => decide (m.life = a.life)

theorem skipped_pull_sound_of_late_record :
    ∃ (s : PullSystem sampleConfig) (a : Moment sampleConfig),
      Run (PullSystem.step samplePeerConfig) (nodeSteps (Orderly (sampleKey 0)))
        (.new sampleConfig samplePeerConfig) s ∧
        s.pull = .checking a ∧ NotedAt a.node (sampleKey 0) ∧
        pullSkips s.peer sampleConfig.meId a.index.meBloomVersion = true ∧
        ∃ r, s.peer.remote.get? sampleConfig.meId = some r ∧
          r.bloom.contains (keyDigest sampleConfig.sha256 (sampleKey 0)) = true := by
  obtain ⟨s, hrun, hs⟩ := run_of_replay (PullSystem.step samplePeerConfig)
    (orderlyGate (sampleKey 0)) (nodeSteps_of_gate (sampleKey 0))
    (.new sampleConfig samplePeerConfig) lateRecord (onRecord lateSkip) (by decide +kernel)
  obtain ⟨a, hpull, ha⟩ := onRecord_spec hs
  simp only [lateSkip, Bool.and_eq_true, decide_eq_true_eq] at ha
  obtain ⟨⟨hskips, hmax⟩, hlife⟩ := ha
  obtain ⟨hne, hskip, -, hnoted⟩ := skipsNoted_spec hskips
  have hsame : ∀ m, s.held = some m → m.life = a.life := by
    intro m hm
    rw [hm] at hlife
    exact of_decide_eq_true hlife
  exact ⟨s, a, hrun, hpull, hnoted, hskip,
    skipped_pull_sound (by decide) hrun hpull hne hskip hsame hmax hnoted⟩

/-- The peer pulls the filter with the first chunk; the node restarts and stores
the second one, which brings it to the same version. -/
def restartedNode : List (PullLabel sampleConfig) :=
  storeChunk 0 0 ++ [.begin 0, .check, .serve, .ingest, .restart] ++ storeChunk 1 0 ++ [.begin 0]

def staleSkip (a : Moment sampleConfig) (s : PullSystem sampleConfig) : Bool :=
  skipsNoted (sampleKey 1) a s &&
    (s.peer.remote.get? sampleConfig.meId).any fun r =>
      !r.bloom.contains (keyDigest sampleConfig.sha256 (sampleKey 1))

/-- The restarted node advertises a version that the peer holds from the earlier
lifetime, and the peer goes on with a filter that lacks the chunk. -/
theorem restarted_node_skipped :
    ∃ (s : PullSystem sampleConfig) (a : Moment sampleConfig),
      Run (PullSystem.step samplePeerConfig) (nodeSteps (Orderly (sampleKey 1)))
        (.new sampleConfig samplePeerConfig) s ∧
        s.pull = .checking a ∧ a.index.meBloomVersion ≠ 0 ∧
        pullSkips s.peer sampleConfig.meId a.index.meBloomVersion = true ∧
        a.node.state.live (sampleKey 1) ∧ NotedAt a.node (sampleKey 1) ∧
        ∃ r, s.peer.remote.get? sampleConfig.meId = some r ∧
          r.bloom.contains (keyDigest sampleConfig.sha256 (sampleKey 1)) = false := by
  obtain ⟨s, hrun, hs⟩ := run_of_replay (PullSystem.step samplePeerConfig)
    (orderlyGate (sampleKey 1)) (nodeSteps_of_gate (sampleKey 1))
    (.new sampleConfig samplePeerConfig) restartedNode (onRecord staleSkip) (by decide +kernel)
  obtain ⟨a, hpull, ha⟩ := onRecord_spec hs
  simp only [staleSkip, Bool.and_eq_true] at ha
  obtain ⟨hskips, hstale⟩ := ha
  obtain ⟨hne, hskip, hlive, hnoted⟩ := skipsNoted_spec hskips
  obtain ⟨r, hr, hlacks⟩ := Option.any_eq_true _ _ |>.mp hstale
  refine ⟨s, a, hrun, hpull, hne, hskip, hlive, hnoted, r, hr, ?_⟩
  simpa using hlacks

end BlobCache.Node
