import BlobCache.Conc.Run
import BlobCache.Node.Versions

/-!
A peer pulls the filter of a node. The node runs, and may restart under the same
id; gossip brings the peer what the node advertised at some moment of its past;
the peer's pull pass compares the advertised version with the one that it holds,
asks for the filter or skips the node, and takes in what the node serves at the
moment of the request.

The record that the pass works with comes from the peer's membership table. A
record of the node with a version other than 0 is a `me_snapshot` of the node,
so the pass begins with a moment of the node's past, of this lifetime or of an
earlier one.
-/

namespace BlobCache.Node

open Cache Conc

variable {cfg : NodeConfig} {pcfg : PeerIndexConfig}

/-- The node in one of its lifetimes. -/
structure Moment (cfg : NodeConfig) where
  life : Nat
  node : Config (machine cfg)

abbrev Moment.index (m : Moment cfg) : PeerIndex := m.node.state.index

/-- Where the peer's pull pass is with the node. -/
inductive Pull (cfg : NodeConfig) where
  | idle
  /-- The pass has the record that the node advertised at that moment. -/
  | checking (record : Moment cfg)
  | asked (record : Moment cfg)
  /-- The node has served its `local_snapshot` of that moment. -/
  | answered (served : Moment cfg)

/-- The moment whose record or answer the pass works with. -/
def Pull.moment : Pull cfg → Option (Moment cfg)
  | .idle => none
  | .checking m | .asked m | .answered m => some m

/-- `past` and `held` are history: the moments before this one, latest first,
and the moment at which the node served the filter that the peer holds. -/
structure PullSystem (cfg : NodeConfig) where
  now : Moment cfg
  past : List (Moment cfg)
  pull : Pull cfg
  peer : PeerIndex
  held : Option (Moment cfg)

inductive PullLabel (cfg : NodeConfig) where
  | node (l : Label (machine cfg))
  | restart
  /-- The pass comes to the node with a record from the past. -/
  | begin (i : Nat)
  | check
  | serve
  | ingest
  | fail
  /-- The peer's own work on its index. -/
  | peer (t : Nat) (o : IndexOp)

/-- The pull pass leaves the node out. -/
def pullSkips (p : PeerIndex) (id : String) (bloomVersion : Nat) : Bool :=
  decide (bloomVersion = 0) || decide (bloomVersion ≤ (p.remoteVersion id).getD 0)

/-- The operation takes in a filter under the id. -/
def ingestsFor (id : String) : IndexOp → Bool
  | .ingestRemote peerId _ _ => peerId == id
  | _ => false

namespace PullSystem

def new (cfg : NodeConfig) (pcfg : PeerIndexConfig) : PullSystem cfg :=
  ⟨⟨0, .init (State.new cfg)⟩, [], .idle, PeerIndex.new pcfg, none⟩

def moments (s : PullSystem cfg) : List (Moment cfg) := s.now :: s.past

def step (pcfg : PeerIndexConfig) (s : PullSystem cfg) : PullLabel cfg → Option (PullSystem cfg)
  | .node l =>
      (s.now.node.step l).map fun ec => { s with now := ⟨s.now.life, ec.2⟩, past := s.moments }
  | .restart =>
      some { s with now := ⟨s.now.life + 1, .init (State.new cfg)⟩, past := s.moments }
  | .begin i =>
      match s.pull with
      | .idle => s.moments[i]?.map fun m => { s with pull := .checking m }
      | _ => none
  | .check =>
      match s.pull with
      | .checking m =>
          if pullSkips s.peer cfg.meId m.index.meBloomVersion then some { s with pull := .idle }
          else some { s with pull := .asked m }
      | _ => none
  | .serve =>
      match s.pull with
      | .asked _ => some { s with pull := .answered s.now }
      | _ => none
  | .ingest =>
      match s.pull with
      | .answered m =>
          let (version, bytes) := m.index.localSnapshot
          let (accepted, peer) := s.peer.ingestRemote cfg.meId version bytes
          some { s with pull := .idle, peer := peer, held := if accepted then some m else s.held }
      | _ => none
  | .fail => some { s with pull := .idle }
  | .peer t o =>
      if ingestsFor cfg.meId o then none
      else
        some { s with
          peer := (s.peer.exec pcfg t o).2
          held := if o = .dropRemote cfg.meId then none else s.held }

/-- What a step can do. -/
inductive Stepped (pcfg : PeerIndexConfig) (s : PullSystem cfg) :
    PullLabel cfg → PullSystem cfg → Prop where
  | node {l : Label (machine cfg)} {e : Event (machine cfg)} {c : Config (machine cfg)}
      (hstep : s.now.node.step l = some (e, c)) :
      Stepped pcfg s (.node l) { s with now := ⟨s.now.life, c⟩, past := s.moments }
  | restart : Stepped pcfg s .restart
      { s with now := ⟨s.now.life + 1, .init (State.new cfg)⟩, past := s.moments }
  | pass {l : PullLabel cfg} (pull : Pull cfg)
      (hpull : ∀ m, pull.moment = some m → m ∈ s.moments ∨ s.pull.moment = some m) :
      Stepped pcfg s l { s with pull := pull }
  | ingest {m : Moment cfg} (hpull : s.pull.moment = some m) : Stepped pcfg s .ingest
      { s with
        pull := .idle
        peer := (s.peer.ingestRemote cfg.meId m.index.version m.index.bloom.toBytes).2
        held :=
          if (s.peer.ingestRemote cfg.meId m.index.version m.index.bloom.toBytes).1 then some m
          else s.held }
  | peer {t : Nat} {o : IndexOp} (ho : ingestsFor cfg.meId o = false) : Stepped pcfg s (.peer t o)
      { s with
        peer := (s.peer.exec pcfg t o).2
        held := if o = .dropRemote cfg.meId then none else s.held }

theorem stepped {s s' : PullSystem cfg} {l : PullLabel cfg} (h : s.step pcfg l = some s') :
    Stepped pcfg s l s' := by
  cases l with
  | node l =>
      obtain ⟨⟨e, c⟩, hstep, rfl⟩ := Option.map_eq_some_iff.mp h
      exact .node hstep
  | restart =>
      cases h
      exact .restart
  | begin i =>
      simp only [step] at h
      split at h
      · obtain ⟨m, hm, rfl⟩ := Option.map_eq_some_iff.mp h
        refine .pass _ ?_
        rintro _ ⟨⟩
        exact .inl (List.mem_of_getElem? hm)
      · cases h
  | check =>
      simp only [step] at h
      split at h
      · rename_i m hpull
        split at h <;> cases h
        · exact .pass .idle nofun
        · refine .pass (.asked m) ?_
          rintro _ ⟨⟩
          exact .inr (by rw [hpull]; rfl)
      · cases h
  | serve =>
      simp only [step] at h
      split at h
      · cases h
        refine .pass (.answered s.now) ?_
        rintro _ ⟨⟩
        exact .inl List.mem_cons_self
      · cases h
  | ingest =>
      simp only [step] at h
      split at h
      · rename_i m hpull
        cases h
        exact .ingest (by rw [hpull]; rfl)
      · cases h
  | fail =>
      cases h
      exact .pass .idle nofun
  | peer t o =>
      simp only [step] at h
      split at h
      · cases h
      · rename_i ho
        cases h
        exact .peer (Bool.eq_false_iff.mpr ho)

end PullSystem

/-- Every step of the node meets the condition. -/
def nodeSteps (H : State → Event (machine cfg) → Prop) (s : PullSystem cfg) : PullLabel cfg → Prop
  | .node l => ∀ e c, s.now.node.step l = some (e, c) → H s.now.node.state e
  | _ => True

def PullLabel.restarts : PullLabel cfg → Bool
  | .restart => true
  | _ => false

/-- The node does not restart. -/
def noRestart (_ : PullSystem cfg) (l : PullLabel cfg) : Prop := l.restarts = false

/-! ### What the peer holds -/

/-- The first moment is in an earlier lifetime, or the node has come from it to
the second. -/
def Moment.Before (H : State → Event (machine cfg) → Prop) (m m' : Moment cfg) : Prop :=
  m.life < m'.life ∨ m.life = m'.life ∧ Config.Reach H m.node m'.node

/-- All that the peer has of the node is of one of its moments, and these follow
each other. -/
structure Linked (H : State → Event (machine cfg) → Prop) (s : PullSystem cfg) : Prop where
  reach : ∀ m ∈ s.moments, Config.Reach H (.init (State.new cfg)) m.node
  order : s.moments.Pairwise fun m' m => m.Before H m'
  pull : ∀ m, s.pull.moment = some m → m ∈ s.moments
  held : ∀ m, s.held = some m → m ∈ s.moments
  remote : s.peer.remote.get? cfg.meId =
    s.held.map fun m => ⟨m.index.version, m.index.bloom⟩

variable {H : State → Event (machine cfg) → Prop} {s s' : PullSystem cfg}

theorem Linked.new (pcfg : PeerIndexConfig) : Linked H (.new cfg pcfg) where
  reach m hm := by
    rw [List.mem_singleton.mp hm]
    exact .refl
  order := List.pairwise_singleton _ _
  pull _ hm := by cases hm
  held _ hm := by cases hm
  remote := rfl

/-- The node moves on to a moment after all others. -/
theorem Linked.advance (h : Linked H s) {next : Moment cfg}
    (hreach : Config.Reach H (.init (State.new cfg)) next.node)
    (hafter : ∀ m ∈ s.moments, m.Before H next) :
    Linked H { s with now := next, past := s.moments } where
  reach m hm := by
    rcases List.mem_cons.mp hm with rfl | hm
    · exact hreach
    · exact h.reach m hm
  order := List.pairwise_cons.mpr ⟨hafter, h.order⟩
  pull m hm := List.mem_cons_of_mem _ (h.pull m hm)
  held m hm := List.mem_cons_of_mem _ (h.held m hm)
  remote := h.remote

theorem Linked.before_now (h : Linked H s) {m : Moment cfg} (hm : m ∈ s.moments) :
    m.Before H s.now := by
  rcases List.mem_cons.mp hm with rfl | hm
  · exact .inr ⟨rfl, .refl⟩
  · exact (List.pairwise_cons.mp h.order).1 m hm

/-- The pass goes on with a moment of the node. -/
theorem Linked.setPull (h : Linked H s) {pull : Pull cfg}
    (hpull : ∀ m, pull.moment = some m → m ∈ s.moments) : Linked H { s with pull := pull } :=
  ⟨h.reach, h.order, hpull, h.held, h.remote⟩

theorem Linked.ingest (h : Linked H s) (hbits : cfg.bloomBits < 2 ^ 64) {m : Moment cfg}
    (hm : m ∈ s.moments) :
    Linked H { s with
      pull := .idle
      peer := (s.peer.ingestRemote cfg.meId m.index.version m.index.bloom.toBytes).2
      held := if (s.peer.ingestRemote cfg.meId m.index.version m.index.bloom.toBytes).1 then some m
        else s.held } := by
  have hsize : m.index.bloom.mBits < 2 ^ 64 := by
    rw [bloom_mBits (h.reach m hm)]
    omega
  have hdecode := Bloom.fromBytes_toBytes m.index.bloom hsize
  refine ⟨h.reach, h.order, nofun, ?_, ?_⟩
  · intro m' hm'
    simp only [PeerIndex.ingestRemote, hdecode] at hm'
    cases hm'
    exact hm
  · simp only [PeerIndex.ingestRemote, hdecode]
    exact FinMap.get?_insert_self _ _ _

theorem Linked.peer (h : Linked H s) {t : Nat} {o : IndexOp} (ho : ingestsFor cfg.meId o = false) :
    Linked H { s with
      peer := (s.peer.exec pcfg t o).2
      held := if o = .dropRemote cfg.meId then none else s.held } := by
  have hother : ∀ version bytes, o ≠ .ingestRemote cfg.meId version bytes := by
    rintro version bytes rfl
    simp [ingestsFor] at ho
  refine ⟨h.reach, h.order, h.pull, ?_, ?_⟩
  · intro m hm
    simp only at hm
    split at hm
    · cases hm
    · exact h.held m hm
  · simp only [PeerIndex.exec_remote pcfg t s.peer cfg.meId hother]
    split
    · rfl
    · exact h.remote

theorem Linked.step (hbits : cfg.bloomBits < 2 ^ 64) {l : PullLabel cfg} (h : Linked H s)
    (hg : nodeSteps H s l) (hs : s.step pcfg l = some s') : Linked H s' := by
  cases PullSystem.stepped hs with
  | node hstep =>
      have hlast : Config.Reach H s.now.node _ := .tail .refl hstep (hg _ _ hstep)
      refine h.advance ((h.reach _ List.mem_cons_self).trans hlast) ?_
      intro m hm
      rcases h.before_now hm with hlt | ⟨heq, hreach⟩
      · exact .inl hlt
      · exact .inr ⟨heq, hreach.trans hlast⟩
  | restart =>
      refine h.advance .refl ?_
      intro m hm
      rcases h.before_now hm with hlt | ⟨heq, -⟩
      · exact .inl (Nat.lt_succ_of_lt hlt)
      · exact .inl (Nat.lt_succ_of_le heq.le)
  | pass pull hpull =>
      refine h.setPull ?_
      intro m hm
      rcases hpull m hm with hmem | hsame
      · exact hmem
      · exact h.pull m hsame
  | ingest hpull => exact h.ingest hbits (h.pull _ hpull)
  | peer ho => exact h.peer ho

theorem linked_run (hbits : cfg.bloomBits < 2 ^ 64)
    (hrun : Run (PullSystem.step pcfg) (nodeSteps H) (.new cfg pcfg) s) : Linked H s :=
  hrun.inv (fun _ _ _ h hg hs => h.step hbits hg hs) (.new pcfg)

/-- In one lifetime, the node has come from one of the moments to the other. -/
def Moment.Comparable (H : State → Event (machine cfg) → Prop) (m m' : Moment cfg) : Prop :=
  m.life = m'.life → Config.Reach H m.node m'.node ∨ Config.Reach H m'.node m.node

instance : Std.Symm (Moment.Comparable H) where
  symm _ _ h heq := (h heq.symm).symm

theorem Linked.comparable (h : Linked H s) {m m' : Moment cfg} (hm : m ∈ s.moments)
    (hm' : m' ∈ s.moments) : m.Comparable H m' := by
  have hpairwise : s.moments.Pairwise (Moment.Comparable H) := by
    refine h.order.imp ?_
    rintro x y (hlt | ⟨-, hreach⟩) heq
    · omega
    · exact .inr hreach
  exact hpairwise.forall_of_forall (fun x _ _ => .inl .refl) hm hm'

/-! ### Versions and bits -/

theorem life_of_noRestart (hrun : Run (PullSystem.step pcfg) noRestart (.new cfg pcfg) s) :
    ∀ m ∈ s.moments, m.life = 0 := by
  refine hrun.inv (I := fun s => ∀ m ∈ s.moments, m.life = 0) ?_ ?_
  · intro s l s' h hg hs
    cases PullSystem.stepped hs with
    | node hstep =>
        intro m hm
        rcases List.mem_cons.mp hm with rfl | hm
        · exact h s.now List.mem_cons_self
        · exact h m hm
    | restart => cases hg
    | _ => exact h
  · intro m hm
    rw [List.mem_singleton.mp hm]
    rfl

theorem nodeSteps_trivial (s : PullSystem cfg) (l : PullLabel cfg) :
    nodeSteps (fun _ _ => True) s l := by
  cases l with
  | node l => exact fun _ _ _ => trivial
  | _ => trivial

/-- In one lifetime, equal versions come with equal filters. -/
theorem Linked.bloom_eq (h : Linked H s) {m m' : Moment cfg} (hm : m ∈ s.moments)
    (hm' : m' ∈ s.moments) (hlife : m.life = m'.life) (heq : m.index.version = m'.index.version)
    (hmax : m.index.version < u64Max) : m.index.bloom = m'.index.bloom := by
  rcases h.comparable hm hm' hlife with hreach | hreach
  · exact bloom_of_version hreach (heq ▸ hmax) heq
  · exact (bloom_of_version hreach hmax heq.symm).symm

theorem Linked.version_le_now (h : Linked H s) {m : Moment cfg} (hm : m ∈ s.moments)
    (hlife : m.life = s.now.life) : m.index.version ≤ s.now.index.version := by
  rcases h.before_now hm with hlt | ⟨-, hreach⟩
  · omega
  · exact (version_le_of_reach hreach (version_bound (h.reach m hm))).1

/-- As long as the node does not restart and its version does not run out, the
version identifies the bits: every change of the filter raises it, two snapshots
of one version are the same bytes, and the filter that the peer holds is the
node's at the version that came with it. -/
theorem version_identifies_bits (hbits : cfg.bloomBits < 2 ^ 64)
    (hrun : Run (PullSystem.step pcfg) noRestart (.new cfg pcfg) s)
    (hmax : s.now.index.version < u64Max) :
    (∀ l e c, s.now.node.step l = some (e, c) → c.state.index.bloom ≠ s.now.index.bloom →
      s.now.index.version < c.state.index.version) ∧
    (∀ m ∈ s.moments, ∀ m' ∈ s.moments,
      m.index.localSnapshot.1 = m'.index.localSnapshot.1 →
        m.index.localSnapshot.2 = m'.index.localSnapshot.2) ∧
    ∀ v bloom, s.peer.remote.get? cfg.meId = some ⟨v, bloom⟩ →
      (∃ m ∈ s.moments, m.index.version = v) ∧
        ∀ m ∈ s.moments, m.index.version = v →
          bloom = m.index.bloom ∧ ∀ d, bloom.contains d = m.index.bloom.contains d := by
  have hlinked : Linked (fun _ _ => True) s :=
    linked_run hbits (hrun.mono fun s l _ => nodeSteps_trivial s l)
  have hlife := life_of_noRestart hrun
  have hsame : ∀ m ∈ s.moments, ∀ m' ∈ s.moments, m.index.version = m'.index.version →
      m.index.bloom = m'.index.bloom := by
    intro m hm m' hm' heq
    have hnow := hlinked.version_le_now hm ((hlife m hm).trans (hlife _ List.mem_cons_self).symm)
    exact hlinked.bloom_eq hm hm' ((hlife m hm).trans (hlife m' hm').symm) heq
      (hnow.trans_lt hmax)
  refine ⟨?_, ?_, ?_⟩
  · intro l e c hstep hchanged
    rcases version_of_stepped (Config.stepped hstep) with ⟨-, hbloom⟩ | hbump
    · exact absurd hbloom hchanged
    · rw [hbump]
      exact lt_saturatingAdd hmax
  · intro m hm m' hm' heq
    exact congrArg Bloom.toBytes (hsame m hm m' hm' heq)
  · intro v bloom hremote
    rw [hlinked.remote] at hremote
    obtain ⟨h, hheld, heq⟩ := Option.map_eq_some_iff.mp hremote
    cases heq
    have hmem := hlinked.held h hheld
    refine ⟨⟨h, hmem, rfl⟩, ?_⟩
    intro m hm hversion
    have hbloom := hsame h hmem m hm hversion.symm
    exact ⟨hbloom, fun d => by rw [hbloom]⟩

/-- The peer of the sample node. -/
def samplePeerConfig : PeerIndexConfig := ⟨sampleSha256, "peer", 64⟩

/-- Chunk `i` is pushed to the sample node, whose next thread is `t`, and stored. -/
def storeChunk (i t : Nat) : List (PullLabel sampleConfig) :=
  .node (.start (Job.insertReceivedChunk (sampleKey i) [1, 2, 3, 4])) :: (storeTurns t).map .node

/-- The peer takes in a version that is overtaken on the way. -/
def pullOvertaken : List (PullLabel sampleConfig) :=
  storeChunk 0 0 ++ [.begin 0, .check, .serve] ++ storeChunk 1 3 ++ [.ingest]

/-- The node is at version 3 and the peer at version 2. -/
def overtaken (s : PullSystem sampleConfig) : Bool :=
  decide (s.now.index.version = 3) &&
    decide (s.peer.remoteVersion sampleConfig.meId = some 2)

theorem version_identifies_bits_when_overtaken :
    ∃ s : PullSystem sampleConfig,
      Run (PullSystem.step samplePeerConfig) noRestart (.new sampleConfig samplePeerConfig) s ∧
        s.now.index.version = 3 ∧ ∃ bloom, s.peer.remote.get? sampleConfig.meId = some ⟨2, bloom⟩ ∧
          ∃ m ∈ s.moments, m.index.version = 2 ∧ bloom = m.index.bloom := by
  obtain ⟨s, hrun, hs⟩ := run_of_replay (PullSystem.step samplePeerConfig)
    (fun _ l => !l.restarts) (fun _ _ h => Bool.not_eq_true' _ ▸ h)
    (.new sampleConfig samplePeerConfig) pullOvertaken overtaken (by decide +kernel)
  simp only [overtaken, Bool.and_eq_true, decide_eq_true_eq] at hs
  obtain ⟨hnow, hheld⟩ := hs
  obtain ⟨⟨v, bloom⟩, hremote, hv⟩ := Option.map_eq_some_iff.mp hheld
  have hmax : s.now.index.version < u64Max := by
    rw [hnow]
    decide
  cases hv
  obtain ⟨⟨m, hm, hversion⟩, hall⟩ :=
    (version_identifies_bits (by decide) hrun hmax).2.2 _ _ hremote
  exact ⟨s, hrun, hnow, bloom, hremote, m, hm, hversion, (hall m hm hversion).1⟩

end BlobCache.Node
