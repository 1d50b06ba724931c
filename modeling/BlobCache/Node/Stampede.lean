import BlobCache.Conc.Run
import BlobCache.Node.Replay
import BlobCache.Node.Waits

/-!
Nodes that ask each other for chunks. A request is handled by the node whose id
it names: `handle_chunk` looks in the cache, and when that misses and the request
waits it calls `serve_peer_chunk`. What the asking node hears is up to the
network, so that a request may be handled once, several times or never, and may
be answered before it is.

`gone` is history: the threads that have gone to the origin for a key, or been
given the chunk by a peer.
-/

namespace BlobCache.Node

open Cache Conc Program

variable {ι : Type} [DecidableEq ι] {cfg : ι → NodeConfig}

/-- A thread that handles a request: the lookup of `handle_chunk`, or the call of
the chunk provider. -/
structure Handler (ι : Type) where
  node : ι
  thread : Nat
  req : PeerRequest
  provides : Bool

structure Peers (cfg : ι → NodeConfig) where
  nodes : (i : ι) → Config (machine (cfg i))
  handlers : List (Handler ι)
  gone : List (ι × Nat × ChunkKey)

inductive PeerLabel (cfg : ι → NodeConfig) where
  | node (i : ι) (l : Label (machine (cfg i)))
  /-- Node `j` begins to handle what thread `t` of node `i` asks for. -/
  | receive (i : ι) (t : Nat) (j : ι)
  /-- The lookup of a handler has missed. -/
  | provide (n : Nat)

namespace Peers

def new (cfg : ι → NodeConfig) : Peers cfg := ⟨fun i => .init (State.new (cfg i)), [], []⟩

/-- Node `i` takes a step. -/
def moved (s : Peers cfg) (i : ι) (e : Event (machine (cfg i))) (c : Config (machine (cfg i)))
    (handlers : List (Handler ι)) : Peers cfg where
  nodes := Function.update s.nodes i c
  handlers := handlers ++ s.handlers
  gone := (settled e).toList.map (i, ·) ++ s.gone

/-- Node `i` starts a job for a request. -/
def handle (s : Peers cfg) (i : ι) (job : Job) (req : PeerRequest) (provides : Bool) :
    Option (Peers cfg) :=
  ((s.nodes i).step (.start job)).map fun ec =>
    s.moved i ec.1 ec.2 [⟨i, (s.nodes i).threads.length, req, provides⟩]

/-- The lookup has ended without a chunk. -/
def missed (s : Peers cfg) (h : Handler ι) : Bool :=
  match (s.nodes h.node).result h.thread with
  | some (.cached (some _)) => false
  | some _ => true
  | none => false

def step (s : Peers cfg) : PeerLabel cfg → Option (Peers cfg)
  | .node i l => ((s.nodes i).step l).map fun ec => s.moved i ec.1 ec.2 []
  | .receive i t j =>
      match requestAt (s.nodes i) t with
      | some req =>
          if req.peerId = (cfg j).meId then s.handle j (.tryGet req.key) req false else none
      | none => none
  | .provide n =>
      match s.handlers[n]? with
      | some h =>
          if h.provides = false ∧ s.missed h = true ∧ 0 < h.req.waitMs ∧ 0 < h.req.length then
            s.handle h.node (.servePeerChunk h.req.key h.req.length h.req.waitMs) h.req true
          else none
      | none => none

/-- Node `i` waits for node `j` to get the chunk. -/
def WaitsFor (s : Peers cfg) (key : ChunkKey) (i j : ι) : Prop :=
  ∃ t req, requestAt (s.nodes i) t = some req ∧ req.key = key ∧ 0 < req.waitMs ∧
    req.peerId = (cfg j).meId

end Peers

/-- All nodes see the members of the view. -/
def allAgree (view : Finset String) (s : Peers cfg) : PeerLabel cfg → Prop
  | .node i l => ∀ e c, (s.nodes i).step l = some (e, c) → viewsAgree view (s.nodes i).state e
  | _ => True

/-! ### What holds of every handler and every leader -/

/-- A handler runs a job that asks no peer, for a request that was sent to its
node, and calls the provider only for one that waits. -/
structure Handles (s : Peers cfg) (key : ChunkKey) (owner : String) (h : Handler ι) : Prop where
  quiet : ∃ j : Job, (s.nodes h.node).job h.thread = some j ∧ j.quiet = true
  waits : h.provides = true → 0 < h.req.waitMs
  owner : h.req.key = key → 0 < h.req.waitMs → (cfg h.node).meId = owner

structure Tended (view : Finset String) (key : ChunkKey) (owner : String) (s : Peers cfg) :
    Prop where
  reach : ∀ i, Config.Reach (viewsAgree view) (.init (State.new (cfg i))) (s.nodes i)
  handlers : ∀ h ∈ s.handlers, Handles s key owner h
  heading : ∀ i, (cfg i).meId = owner → (cfg i).mounts.get? key.mount ≠ none →
    Heading (cfg i) view key (fun t => (i, t, key) ∈ s.gone) (s.nodes i)

variable {view : Finset String} {key : ChunkKey} {owner : String} {s s' : Peers cfg}

omit [DecidableEq ι] in
theorem Tended.new : Tended view key owner (.new cfg) where
  reach _ := .refl
  handlers _ hh := by cases hh
  heading _ _ _ := .init _

section Step

variable {i : ι} {l : Label (machine (cfg i))} {e : Event (machine (cfg i))}
  {c : Config (machine (cfg i))} (hstep : (s.nodes i).step l = some (e, c))
  {handlers : List (Handler ι)}

include hstep

/-- Threads keep their jobs. -/
theorem Peers.job_of_moved {j : ι} {t : Nat} {job : Job} (hjob : (s.nodes j).job t = some job) :
    ((s.moved i e c handlers).nodes j).job t = some job := by
  by_cases hji : j = i
  · subst hji
    simp only [Peers.moved, Function.update_self]
    exact Config.job_of_step hstep hjob
  · simp only [Peers.moved, Function.update_of_ne hji]
    exact hjob

theorem Handles.moved {h : Handler ι} (hh : Handles s key owner h) :
    Handles (s.moved i e c handlers) key owner h := by
  obtain ⟨j, hj, hquiet⟩ := hh.quiet
  exact ⟨⟨j, Peers.job_of_moved hstep hj, hquiet⟩, hh.waits, hh.owner⟩

theorem Tended.moved (h : Tended view key owner s)
    (howner : OwnerIn (cfg i).sha256 key view owner) (hview : (cfg i).meId ∈ view)
    (hg : viewsAgree view (s.nodes i).state e)
    (hnew : ∀ h ∈ handlers, Handles (s.moved i e c handlers) key owner h) :
    Tended view key owner (s.moved i e c handlers) := by
  refine ⟨?_, ?_, ?_⟩
  · refine (Function.forall_update_iff s.nodes fun j c =>
      Config.Reach (viewsAgree view) (.init (State.new (cfg j))) c).mpr ⟨?_, ?_⟩
    · exact (h.reach i).tail hstep hg
    · exact fun j _ => h.reach j
  · intro h' hh'
    rcases List.mem_append.mp hh' with hh' | hh'
    · exact hnew h' hh'
    · exact (h.handlers h' hh').moved hstep
  · intro j hme hmount
    have hold : ∀ t, (j, t, key) ∈ s.gone → (j, t, key) ∈ (s.moved i e c handlers).gone :=
      fun t ht => List.mem_append_right _ ht
    by_cases hji : j = i
    · subst hji
      simp only [Peers.moved, Function.update_self]
      refine ((h.heading j hme hmount).step howner hview (h.reach j) hme hmount hg
        (Config.stepped hstep)).mono ?_
      rintro t (ht | ht)
      · exact hold t ht
      · rw [ht]
        exact List.mem_append_left _ (List.mem_singleton.mpr rfl)
    · have hsame : (s.moved i e c handlers).nodes j = s.nodes j := Function.update_of_ne hji _ _
      rw [hsame]
      exact (h.heading j hme hmount).mono hold

end Step

/-- Starting a job for a request. -/
theorem Tended.handle {i : ι} {job : Job} {req : PeerRequest} {provides : Bool}
    (h : Tended view key owner s) (howner : OwnerIn (cfg i).sha256 key view owner)
    (hview : (cfg i).meId ∈ view) (hs : s.handle i job req provides = some s')
    (hquiet : job.quiet = true) (hunwaited : job.unwaited)
    (hwaits : provides = true → 0 < req.waitMs)
    (hkey : req.key = key → 0 < req.waitMs → (cfg i).meId = owner) :
    Tended view key owner s' := by
  obtain ⟨⟨e, c⟩, hstep, rfl⟩ := Option.map_eq_some_iff.mp hs
  have hstart : e = .start job ∧ c.job (s.nodes i).threads.length = some job := by
    simp only [Config.step] at hstep
    split at hstep
    · cases hstep
      refine ⟨rfl, ?_⟩
      rw [Config.job, List.getElem?_concat_length]
      rfl
    · cases hstep
  obtain ⟨rfl, hjob⟩ := hstart
  refine h.moved hstep howner hview hunwaited ?_
  intro h' hh'
  rw [List.mem_singleton.mp hh']
  refine ⟨⟨job, ?_, hquiet⟩, hwaits, hkey⟩
  simp only [Peers.moved, Function.update_self]
  exact hjob

variable (howner : ∀ i, OwnerIn (cfg i).sha256 key view owner) (hview : ∀ i, (cfg i).meId ∈ view)

include howner hview

theorem Tended.step {l : PeerLabel cfg} (h : Tended view key owner s) (hg : allAgree view s l)
    (hs : s.step l = some s') : Tended view key owner s' := by
  cases l with
  | node i l =>
      obtain ⟨⟨e, c⟩, hstep, rfl⟩ := Option.map_eq_some_iff.mp hs
      exact h.moved hstep (howner i) (hview i) (hg e c hstep) (fun _ hh => by cases hh)
  | receive i t j =>
      simp only [Peers.step] at hs
      split at hs
      · rename_i req hreq
        split at hs
        · rename_i hid
          refine h.handle (howner j) (hview j) hs rfl trivial nofun ?_
          intro hkey hwait
          have hrequest := request_to_owner (howner i) (hview i) (h.reach i) hreq hkey hwait
          exact hid.symm.trans hrequest.1
        · cases hs
      · cases hs
  | provide n =>
      simp only [Peers.step] at hs
      split at hs
      · rename_i h' hh'
        split at hs
        · rename_i hcond
          have hhandles := h.handlers h' (List.mem_of_getElem? hh')
          exact h.handle (howner _) (hview _) hs rfl trivial (fun _ => hcond.2.2.1) hhandles.owner
        · cases hs
      · cases hs

theorem tended_run (hrun : Run Peers.step (allAgree view) (.new cfg) s) :
    Tended view key owner s :=
  hrun.inv (fun _ _ _ h hg hs => h.step howner hview hg hs) .new

omit howner in
/-- Waiting neither chains nor cycles: a request for the key that waits is sent to
the owner and not by the owner, handling it asks no peer, and so a node that is
waited for does not wait; whoever leads the key there has gone to the origin, has
been given the chunk, or is bound for the origin without waiting for a peer. -/
theorem stampede_waits_do_not_chain {sha256 : Bytes → Digest}
    (hsha : ∀ i, (cfg i).sha256 = sha256) (hinj : Set.InjOn (keyScore sha256 key) view)
    (howner : owner ∈ view)
    (hmax : ∀ id ∈ view, keyScore sha256 key id ≤ keyScore sha256 key owner)
    (hrun : Run Peers.step (allAgree view) (.new cfg) s) :
    OwnerIn sha256 key view owner ∧
    (∀ i t req, requestAt (s.nodes i) t = some req → req.key = key → 0 < req.waitMs →
      req.peerId = owner ∧ (cfg i).meId ≠ owner) ∧
    (∀ h ∈ s.handlers, (h.provides = true → h.req.key = key → (cfg h.node).meId = owner) ∧
      ∀ u, (s.nodes h.node).Descends h.thread u → requestAt (s.nodes h.node) u = none) ∧
    ∀ i j, s.WaitsFor key i j → (∀ l, ¬ s.WaitsFor key j l) ∧
      ((cfg j).mounts.get? key.mount ≠ none → ∀ t th p, (s.nodes j).threads[t]? = some th →
        th.status = .running p → (s.nodes j).state.fetch.guards.get? t = some key →
          (j, t, key) ∈ s.gone ∨ p.Reaches (originWay (cfg j) view key)) := by
  have hagreed := ownerIn_of_max hinj howner hmax
  have howners : ∀ i, OwnerIn (cfg i).sha256 key view owner := fun i => hsha i ▸ hagreed
  have htended := tended_run howners hview hrun
  have hrequests : ∀ i t req, requestAt (s.nodes i) t = some req → req.key = key →
      0 < req.waitMs → req.peerId = owner ∧ (cfg i).meId ≠ owner :=
    fun i t req => request_to_owner (howners i) (hview i) (htended.reach i)
  refine ⟨hagreed, hrequests, ?_, ?_⟩
  · intro h hh
    obtain ⟨⟨job, hjob, hquiet⟩, hwaits, hkey⟩ := htended.handlers h hh
    refine ⟨fun hprovides hsame => hkey hsame (hwaits hprovides), ?_⟩
    intro u hdesc
    exact quiet_run (htended.reach h.node) hjob hquiet hdesc
  · rintro i j ⟨t, req, hreq, hkey, hwait, hid⟩
    have hme : (cfg j).meId = owner := hid.symm.trans (hrequests i t req hreq hkey hwait).1
    refine ⟨?_, fun hmount => (htended.heading j hme hmount).leader⟩
    rintro l ⟨t', req', hreq', hkey', hwait', -⟩
    exact (hrequests j t' req' hreq' hkey' hwait').2 hme

omit howner hview

/-- Two nodes, of which the second has the higher scores. -/
def samplePair (i : Bool) : NodeConfig :=
  { sampleConfig with
    sha256 := firstByteSha256
    meId := if i then "a" else "b"
    stampedeWaitMs := 250 }

/-- The first node misses everywhere and asks the second one to wait. -/
def askTurns : List (Label (machine (samplePair true))) :=
  [.start sampleFetch] ++ turns 0 3 ++ turns 1 3 ++ turns 0 2 ++
    [.run 0 { Choice.benign with
      fetch := { Choice.benign.fetch with alive := [⟨"b", "", none⟩] } }] ++ turns 0 2

/-- The second node handles the request and becomes leader. -/
def askOwner : List (PeerLabel samplePair) :=
  askTurns.map (.node true) ++ [.receive true 0 false] ++ (turns 0 3).map (.node false) ++
    [.provide 0] ++ (turns 1 1 ++ turns 2 3 ++ turns 1 2).map (.node false)

def pairGate (s : Peers samplePair) : PeerLabel samplePair → Bool
  | .node i l => ((s.nodes i).step l).all fun ec =>
      match ec.1 with
      | .start j => !Job.pulls j
      | .op _ (Op.fetch .membersAlive) c =>
          decide ((Choice.fetch c).alive.map (·.id) = if i then ["b"] else ["a"])
      | _ => true
  | _ => true

theorem samplePair_agrees (i : Bool) {alive : List NodeInfo}
    (h : alive.map (·.id) = if i then ["b"] else ["a"]) :
    Agrees (samplePair i) {"a", "b"} alive := by
  intro id
  rw [h]
  cases i with
  | true =>
      have hothers : ({"a", "b"} : Finset String).erase "a" = {"b"} := by decide
      change id ∈ ["b"] ↔ id ∈ Finset.erase _ "a"
      rw [hothers, List.mem_singleton, Finset.mem_singleton]
  | false =>
      have hothers : ({"a", "b"} : Finset String).erase "b" = {"a"} := by decide
      change id ∈ ["a"] ↔ id ∈ Finset.erase _ "b"
      rw [hothers, List.mem_singleton, Finset.mem_singleton]

theorem allAgree_of_gate (s : Peers samplePair) (l : PeerLabel samplePair)
    (h : pairGate s l = true) : allAgree {"a", "b"} s l := by
  cases l with
  | node i l =>
      intro e c hstep
      simp only [pairGate, hstep, Option.all_some] at h
      unfold viewsAgree
      split at h
      · rename_i j
        cases j with
        | pullChunkFromPeerWait => cases h
        | _ => trivial
      · exact samplePair_agrees i (of_decide_eq_true h)
      · rename_i hstart hmembers
        split
        · exact absurd rfl (hstart _)
        · exact absurd rfl (hmembers _ _)
        · trivial
  | _ => trivial

/-- The first node waits, and thread 1 of the second one leads the key and has
not gone to the origin yet. -/
def asked (s : Peers samplePair) : Bool :=
  decide ((requestAt (s.nodes true) 0).map (fun req => (req.key, req.waitMs, req.peerId)) =
    some (sampleKey 0, 250, "b")) &&
  decide ((s.nodes false).state.fetch.guards.get? 1 = some (sampleKey 0)) &&
  (s.nodes false).threads[1]?.any (fun th => !th.finished) &&
  decide ((false, 1, sampleKey 0) ∉ s.gone)

theorem stampede_waits_do_not_chain_for_two :
    ∃ s : Peers samplePair, Run Peers.step (allAgree {"a", "b"}) (.new samplePair) s ∧
      s.WaitsFor (sampleKey 0) true false ∧ (∀ i, ¬ s.WaitsFor (sampleKey 0) false i) ∧
      ∃ th p, (s.nodes false).threads[1]? = some th ∧ th.status = .running p ∧
        p.Reaches (originWay (samplePair false) {"a", "b"} (sampleKey 0)) := by
  obtain ⟨s, hrun, hs⟩ := run_of_replay Peers.step pairGate allAgree_of_gate (.new samplePair)
    askOwner asked (by decide +kernel)
  simp only [asked, Bool.and_eq_true, decide_eq_true_eq] at hs
  obtain ⟨⟨⟨hreq, hguard⟩, hrunning⟩, hgone⟩ := hs
  obtain ⟨req, hreq, heq⟩ := Option.map_eq_some_iff.mp hreq
  simp only [Prod.mk.injEq] at heq
  have hwaits : s.WaitsFor (sampleKey 0) true false :=
    ⟨0, req, hreq, heq.1, by rw [heq.2.1]; decide, heq.2.2⟩
  have hview : ∀ i, (samplePair i).meId ∈ ({"a", "b"} : Finset String) := by decide
  have hinj : Set.InjOn (keyScore firstByteSha256 (sampleKey 0)) ({"a", "b"} : Finset String) := by
    decide +kernel
  have hmax : ∀ id ∈ ({"a", "b"} : Finset String), keyScore firstByteSha256 (sampleKey 0) id ≤
      keyScore firstByteSha256 (sampleKey 0) "b" := by
    decide +kernel
  obtain ⟨-, -, -, hchain⟩ :=
    stampede_waits_do_not_chain hview (fun _ => rfl) hinj (by decide) hmax hrun
  obtain ⟨hnone, hleader⟩ := hchain true false hwaits
  obtain ⟨th, hth, hfinished⟩ := Option.any_eq_true _ _ |>.mp hrunning
  cases hst : th.status with
  | running p =>
      have hreaches := (hleader (by decide +kernel) 1 th p hth hst hguard).resolve_left hgone
      exact ⟨s, hrun, hwaits, hnone, th, p, hth, hst, hreaches⟩
  | done v | cancelled => simp [Thread.finished, hst] at hfinished

end BlobCache.Node
