import BlobCache.Hydrate.Ring
import BlobCache.Hydrate.RingTotals

/-!
A whole hydration. `run_coordinator` lists the blobs, deals their chunks out to the nodes and
waits until each has fetched its share (Phase A). If nobody reports an error, every node then
pulls the rest from the others, by a broadcast or around a ring (Phase B).

A report without errors means that the cluster is filled, as far as a single worker can be
trusted for what it answers (`Accounted`) and the tasks of the ring are joined, without which
the totals do not show a loss.
-/

namespace BlobCache.Hydrate

open Conc Node

/-! ## The coordinator -/

inductive HydrateMode where
  | default
  | broadcast
  | ring
  deriving DecidableEq

/-- The variable `HYDRATE_MODE` comes before what the request asks for. -/
def hydrateMode (env : Option String) (requestMode : Option HydrateMode) : HydrateMode :=
  match env.map String.toLower with
  | some "broadcast" => .broadcast
  | some "ring" => .ring
  | _ => requestMode.getD .default

structure HydrateRequest where
  mount : String
  path : String
  recursive : Option Bool
  mode : Option HydrateMode

structure HydrateResponse where
  mount : String
  path : String
  totalFiles : Nat
  totalChunks : Nat
  totalBytes : Nat
  peers : List PerPeerStats
  mode : Option HydrateMode
  broadcastPeers : List PerPeerStats

def HydrateResponse.errors (resp : HydrateResponse) : List String :=
  (resp.peers ++ resp.broadcastPeers).flatMap (·.errors)

/-- The end of a task of Phase A, which is `answered` also where the coordinator works through
its own share. -/
inductive FetchEnd where
  | answered (r : ShardResponse)
  | decodeFailed (cause : String)
  | postFailed (cause : String)
  | joinFailed (cause : String)

/-- How the tasks of each phase end, none where the phase takes too long. -/
structure Ends where
  fetch : Option (Nat → FetchEnd)
  broadcast : Option (Nat → ShardEnd)
  ring : Nat → StepEnd

def fetchStats (s : BroadcastSource) : FetchEnd → PerPeerStats
  | .answered r => ⟨s.nodeId, s.chunks.length, r.fetched, r.bytes, r.errors⟩
  | .decodeFailed cause => ⟨s.nodeId, s.chunks.length, 0, 0, ["decode: " ++ cause]⟩
  | .postFailed cause => ⟨s.nodeId, s.chunks.length, 0, 0, ["post: " ++ cause]⟩
  | .joinFailed cause => ⟨"unknown", 0, 0, 0, ["join: " ++ cause]⟩

def runFetchPhase (plan : List BroadcastSource) (timeout : Nat) :
    Option (Nat → FetchEnd) → List PerPeerStats
  | some ends => plan.zipIdx.map fun s => fetchStats s.1 (ends s.2)
  | none => [⟨"coordinator", 0, 0, 0,
      [s!"coordinator timeout after {timeout}s; aborted outstanding shards"]⟩]

/-- What `run_coordinator` is given, and what it reads from its environment. -/
structure Coordinator where
  chunkSize : Nat
  mounts : FinMap String MountConfig
  hasClient : String → Bool
  listBlobs : MountConfig → Option String → Bool → Except BcError (List ListedBlob)
  membership : Cluster.Membership
  meId : String
  meTransportUrl : String
  modeVar : Option String
  timeout : Nat

namespace Coordinator

variable (env : Coordinator)

def targets : List Target := Hydrate.targets env.meId env.membership.membersAll

def plan (chunks : List ChunkSpec) : List BroadcastSource :=
  Hydrate.plan env.meTransportUrl env.targets chunks

/-- Phase B, which is left out when Phase A has reported errors. -/
def secondPhase (mode : HydrateMode) (mount : String) (p : List BroadcastSource) (ends : Ends)
    (peers : List PerPeerStats) : List PerPeerStats :=
  if peers.all (·.errors.isEmpty) then
    match mode with
    | .default => []
    | .broadcast => runBroadcastPhase mount p env.timeout ends.broadcast
    | .ring => runRingPhase mount p ends.ring
  else []

/-- The response to a request for these blobs; the sum wraps around as it does in a release
build. -/
def respond (req : HydrateRequest) (mount : MountConfig) (listed : List ListedBlob)
    (ends : Ends) : HydrateResponse :=
  let mode := hydrateMode env.modeVar req.mode
  let chunks := allChunks env.chunkSize mount listed
  if chunks.isEmpty then ⟨req.mount, req.path, 0, 0, 0, [], some mode, []⟩
  else
    let p := env.plan chunks
    let peers := runFetchPhase p env.timeout ends.fetch
    ⟨req.mount, req.path, (listed.filter (·.contentLength ≠ 0)).length, chunks.length,
      (peers.map (·.bytes)).sum % 2 ^ 64, peers, some mode,
      env.secondPhase mode req.mount p ends peers⟩

/-- The blobs that a request is about. -/
def listing (req : HydrateRequest) : Except BcError (MountConfig × List ListedBlob) :=
  match env.mounts.get? req.mount with
  | none => .error (.other (unknownMount req.mount))
  | some mount =>
      if env.hasClient req.mount then
        let combined := combinedPrefix mount req.path
        let listedPrefix := if combined.isEmpty then none else some combined
        match env.listBlobs mount listedPrefix (req.recursive.getD true) with
        | .error e => .error e
        | .ok listed => .ok (mount, listed)
      else .error (.other ("no blob client for mount " ++ req.mount))

def runCoordinator (req : HydrateRequest) (ends : Ends) : Except BcError HydrateResponse :=
  match env.listing req with
  | .error e => .error e
  | .ok (mount, listed) => .ok (env.respond req mount listed ends)

end Coordinator

/-! ## What the nodes have stored -/

/-- The node has worked through `j` and answered `v`, in a run in which its answer can be
trusted. -/
def Worked {cfg : NodeConfig} (c : Config (machine cfg)) (j : Job) (v : Val) : Prop :=
  ∃ t0, Config.Reach (Accounted cfg t0 j) (.init (State.new cfg)) c ∧
    c.job t0 = some (.inr j) ∧ c.result t0 = some (.inr v)

def keyOf (m : MountConfig) (x : ChunkSpec) : ChunkKey := ⟨m.name, x.blob, x.offset⟩

theorem Worked.stored {cfg : NodeConfig} {c : Config (machine cfg)} {j : Job} {v : Val}
    (h : Worked c j v) (hnone : v.errors = []) {m : MountConfig}
    (hmount : cfg.mounts.get? j.mount = some m) {x : ChunkSpec} (hx : x ∈ j.chunks) :
    Stored c.state (keyOf m x) := by
  obtain ⟨t0, hrun, hjob, hresp⟩ := h
  obtain ⟨ws, hagree, hledger⟩ := (ledger_sound t0 j).reach (Ledger.new t0 j) hrun
  obtain ⟨w, hw, hpost⟩ := hagree.post_of_result hjob hresp
  apply hledger.stored hw hpost hnone
  rw [Job.assigned, hmount]
  exact List.mem_map_of_mem hx

theorem errors_of_crossCheck {assigned : Nat} {r : BroadcastShardResponse}
    (h : crossCheck assigned r = []) : r.errors = [] := by
  unfold crossCheck at h
  dsimp only at h
  split_ifs at h
  · exact absurd h (by simp)
  · exact absurd h (by simp)
  · exact h

/-- The ring keeps the entries of the nodes. -/
theorem exists_get?_ringLoop (mount : String) (sorted : List BroadcastSource)
    (steps : Nat → StepEnd) (ks : List Nat) {pods : PerPod} {id : String} {ps : PerPeerStats}
    (hget : pods.get? id = some ps) :
    ∃ ps', (ringLoop mount sorted steps ks pods).get? id = some ps' := by
  induction ks generalizing pods ps with
  | nil => exact ⟨ps, hget⟩
  | cons k ks ih =>
      rw [ringLoop]
      cases steps k with
      | joined ends =>
          apply ih
          rw [get?_foldl_add, hget]
          exact rfl
      | timeoutBefore | timeoutDuring =>
          dsimp only
          rw [PerPod.pushAll, Table.get?_modify, hget]
          exact ⟨_, rfl⟩

section Phases

variable {cfg : String → NodeConfig} (node : (id : String) → Config (machine (cfg id)))

/-- What a task reports is what the worker at its node has answered. -/
structure Faithful (mount : String) (p : List BroadcastSource) (ends : Ends) : Prop where
  fetch : ∀ es, ends.fetch = some es → ∀ s i, (s, i) ∈ p.zipIdx → ∀ r, es i = .answered r →
    Worked (node s.nodeId) (.runShard ⟨mount, s.chunks⟩) (.shard r)
  broadcast : ∀ es, ends.broadcast = some es → ∀ d i, (d, i) ∈ (broadcastPhase mount p).zipIdx →
    ∀ r, es i = .ran r ∨ es i = .answered r →
      Worked (node d.receiverId) (.runBroadcastShard d.body) (.broadcastShard r)
  ring : ∀ k es, ends.ring k = .joined es → ∀ (recv : Fin (sortedPlan p).length) r,
    es recv = .answered r →
      Worked (node ((sortedPlan p).get recv).nodeId)
        (.runRingStep (ringBody mount (sortedPlan p) k recv)) (.ringStep r)

variable {node} {mount : String} {m : MountConfig} {p : List BroadcastSource} {ends : Ends}
  (h : Faithful node mount p ends) (hmounts : ∀ id, (cfg id).mounts.get? mount = some m)
include h hmounts

theorem stored_own {timeout : Nat}
    (hnone : ∀ ps ∈ runFetchPhase p timeout ends.fetch, ps.errors = []) {s : BroadcastSource}
    (hs : s ∈ p) {x : ChunkSpec} (hx : x ∈ s.chunks) :
    Stored (node s.nodeId).state (keyOf m x) := by
  unfold runFetchPhase at hnone
  split at hnone
  · rename_i es hes
    obtain ⟨i, hi, rfl⟩ := List.mem_iff_getElem.mp hs
    have hplace : (p[i], i) ∈ p.zipIdx := List.mk_mem_zipIdx_iff_getElem?.mpr
      (List.getElem?_eq_getElem hi)
    have herrors := hnone _ (List.mem_map_of_mem hplace)
    cases hend : es i with
    | answered r =>
        rw [hend] at herrors
        exact (h.fetch es hes _ i hplace r hend).stored herrors (hmounts _) hx
    | _ =>
        rw [hend] at herrors
        cases herrors
  · cases hnone _ List.mem_cons_self

theorem stored_of_broadcast {timeout : Nat}
    (hnone : ∀ ps ∈ runBroadcastPhase mount p timeout ends.broadcast, ps.errors = [])
    {own s : BroadcastSource} (hown : own ∈ p) (hs : s ∈ p) (hne : s.nodeId ≠ own.nodeId)
    {x : ChunkSpec} (hx : x ∈ s.chunks) : Stored (node own.nodeId).state (keyOf m x) := by
  unfold runBroadcastPhase at hnone
  split at hnone
  · rename_i es hes
    have hsent : ⟨own.nodeId, _, ⟨mount, others p own.nodeId⟩⟩ ∈ broadcastPhase mount p :=
      List.mem_map_of_mem hown
    obtain ⟨i, hi, hget⟩ := List.mem_iff_getElem.mp hsent
    have hplace := List.mk_mem_zipIdx_iff_getElem?.mpr (List.getElem?_eq_some_iff.mpr ⟨hi, hget⟩)
    have herrors := hnone _ (List.mem_map_of_mem hplace)
    have hasked : x ∈ (others p own.nodeId).flatMap (·.chunks) :=
      List.mem_flatMap.mpr ⟨s, List.mem_filter.mpr ⟨hs, decide_eq_true hne⟩, hx⟩
    cases hend : es i with
    | ran r =>
        rw [hend] at herrors
        exact (h.broadcast es hes _ i hplace r (.inl hend)).stored herrors (hmounts _) hasked
    | answered r =>
        rw [hend] at herrors
        exact (h.broadcast es hes _ i hplace r (.inr hend)).stored
          (errors_of_crossCheck herrors) (hmounts _) hasked
    | _ =>
        rw [hend] at herrors
        cases herrors
  · cases hnone _ List.mem_cons_self

theorem stored_of_ring (hjoined : ∀ k es, ends.ring k = .joined es → ∀ i, (es i).isJoined = true)
    (hnone : ∀ ps ∈ runRingPhase mount p ends.ring, ps.errors = [])
    {own s : BroadcastSource} (hown : own ∈ p) (hs : s ∈ p) (hne : s.nodeId ≠ own.nodeId)
    {x : ChunkSpec} (hx : x ∈ s.chunks) : Stored (node own.nodeId).state (keyOf m x) := by
  rw [← (sortedPlan_perm p).mem_iff] at hown hs
  obtain ⟨recv, rfl⟩ := List.mem_iff_get.mp hown
  obtain ⟨src, rfl⟩ := List.mem_iff_get.mp hs
  have hranks : src ≠ recv := fun heq => hne (by rw [heq])
  obtain ⟨k, hk, hkw, rfl⟩ := exists_step recv hranks
  have hstep : k ∈ ringSteps (sortedPlan p) := List.mem_range'_1.mpr ⟨hk, by omega⟩
  have hid : ((sortedPlan p).get recv).nodeId ∈ (sortedPlan p).map (·.nodeId) :=
    List.mem_map_of_mem (List.get_mem _ _)
  have hsetup := get?_setup (sortedPlan p) ((sortedPlan p).get recv).nodeId
  rw [if_pos hid] at hsetup
  obtain ⟨ps, hget⟩ := exists_get?_ringLoop mount (sortedPlan p) ends.ring
    (ringSteps (sortedPlan p)) hsetup
  have herrors : ps.errors = [] := by
    apply hnone
    unfold runRingPhase
    dsimp only
    rw [if_neg (by omega), List.mem_insertionSort, Table.mem_values_iff,
      show ps.nodeId = _ from Table.keyed _ _ ps hget]
    exact hget
  have htime (k : Nat) (hk : k ∈ ringSteps (sortedPlan p)) : (ends.ring k).timesOut = false := by
    rw [← Bool.not_eq_true]
    intro hout
    exact errors_of_timeout mount (sortedPlan p) ⟨k, hk, hout⟩ _ hget herrors
  obtain ⟨-, rfl⟩ := get?_final htime hget
  have hcounted := ((foldl_add_errors _ _).mp herrors).2
  cases hends : ends.ring k with
  | joined es =>
      have hanswer (r : RingStepResponse) (hr : ringResult ((sortedPlan p).get recv).nodeId
          (es recv) = (((sortedPlan p).get recv).nodeId, r)) : r.errors = [] :=
        hcounted r (List.mem_flatMap.mpr ⟨k, hstep, mem_countedIn hends recv hr⟩)
      have hjoin := hjoined k es hends recv
      cases hend : es recv with
      | answered r =>
          have herror := hanswer r (by rw [hend]; rfl)
          exact (h.ring k es hends recv r hend).stored herror (hmounts _) hx
      | decodeFailed cause | postFailed cause => cases hanswer _ (by rw [hend]; rfl)
      | joinFailed cause =>
          rw [hend] at hjoin
          cases hjoin
  | _ =>
      have hout := htime k hstep
      rw [hends] at hout
      cases hout

end Phases

theorem HydrateResponse.no_errors {resp : HydrateResponse} (h : resp.errors = []) :
    (∀ ps ∈ resp.peers, ps.errors = []) ∧ ∀ ps ∈ resp.broadcastPeers, ps.errors = [] := by
  rw [HydrateResponse.errors, List.flatMap_eq_nil_iff] at h
  exact ⟨fun ps hps => h ps (List.mem_append_left _ hps),
    fun ps hps => h ps (List.mem_append_right _ hps)⟩

theorem mount_of_listing {env : Coordinator} {req : HydrateRequest} {m : MountConfig}
    {listed : List ListedBlob} (h : env.listing req = .ok (m, listed)) :
    env.mounts.get? req.mount = some m := by
  unfold Coordinator.listing at h
  split at h
  · cases h
  · rename_i mount hmount
    split at h
    · dsimp only at h
      split at h
      · cases h
      · cases h
        exact hmount
    · cases h

/-- When the coordinator reports no error, every chunk of every listed blob is stored at one
of the targets, and at all of them after a broadcast or a ring. -/
theorem report_without_errors_fills {env : Coordinator} {req : HydrateRequest} {ends : Ends}
    {cfg : String → NodeConfig} {node : (id : String) → Config (machine (cfg id))}
    {m : MountConfig} {listed : List ListedBlob} {resp : HydrateResponse}
    (hlisted : env.listing req = .ok (m, listed)) (hresp : env.runCoordinator req ends = .ok resp)
    (hmounts : ∀ id, (cfg id).mounts = env.mounts)
    (hfaithful : Faithful node req.mount (env.plan (allChunks env.chunkSize m listed)) ends)
    (hjoined : ∀ k es, ends.ring k = .joined es → ∀ i, (es i).isJoined = true)
    (hnone : resp.errors = []) {x : ChunkSpec} (hx : x ∈ allChunks env.chunkSize m listed) :
    (∃ t ∈ env.targets, Stored (node t.nodeId).state (keyOf m x)) ∧
      (resp.mode ≠ some .default →
        ∀ t ∈ env.targets, Stored (node t.nodeId).state (keyOf m x)) := by
  have hmount (id : String) : (cfg id).mounts.get? req.mount = some m := by
    rw [hmounts id]
    exact mount_of_listing hlisted
  obtain ⟨hfirst, hsecond⟩ := HydrateResponse.no_errors hnone
  simp only [Coordinator.runCoordinator, hlisted, Except.ok.injEq] at hresp
  subst hresp
  have hchunks : (allChunks env.chunkSize m listed).isEmpty = false := by
    rw [List.isEmpty_eq_false_iff]
    exact List.ne_nil_of_mem hx
  simp only [Coordinator.respond, hchunks, Bool.false_eq_true, if_false] at hfirst hsecond ⊢
  generalize hp : env.plan (allChunks env.chunkSize m listed) = p at *
  have hids : p.map (·.nodeId) = env.targets.map (·.nodeId) := hp ▸ plan_ids
  have hclean : (runFetchPhase p env.timeout ends.fetch).all (·.errors.isEmpty) = true := by
    rw [List.all_eq_true]
    intro ps hps
    rw [hfirst ps hps]
    rfl
  simp only [Coordinator.secondPhase, if_pos hclean] at hsecond
  -- the node that was assigned the chunk
  obtain ⟨s, hs, hxs⟩ : ∃ s ∈ p, x ∈ s.chunks := by
    have hne : env.targets ≠ [] := List.cons_ne_nil _ _
    rw [← hp]
    exact List.mem_flatMap.mp ((plan_perm hne).mem_iff.mpr hx)
  have hstored := stored_own hfaithful hmount hfirst hs hxs
  constructor
  · obtain ⟨t, ht, hid⟩ := List.mem_map.mp (hids ▸ List.mem_map_of_mem hs)
    exact ⟨t, ht, hid ▸ hstored⟩
  · intro hmode t ht
    obtain ⟨own, hown, hid⟩ := List.mem_map.mp (hids.symm ▸ List.mem_map_of_mem ht)
    rw [← hid]
    by_cases hsame : s.nodeId = own.nodeId
    · exact hsame ▸ hstored
    · cases hmode' : hydrateMode env.modeVar req.mode with
      | default => exact absurd (congrArg some hmode') hmode
      | broadcast =>
          rw [hmode'] at hsecond
          exact stored_of_broadcast hfaithful hmount hsecond hown hs hsame hxs
      | ring =>
          rw [hmode'] at hsecond
          exact stored_of_ring hfaithful hmount hjoined hsecond hown hs hsame hxs

/-! ### A broadcast between two nodes -/

def sampleBlobs : List ListedBlob := [⟨"b", 4⟩, ⟨"c", 4⟩]

def sampleCoordinator : Coordinator where
  chunkSize := 4096
  mounts := sampleConfig.mounts
  hasClient _ := true
  listBlobs _ _ _ := .ok sampleBlobs
  membership := twoMembers
  meId := "a"
  meTransportUrl := "http://a:1"
  modeVar := some "Broadcast"
  timeout := 3700

def sampleRequest : HydrateRequest := ⟨"m", "", none, none⟩

/-- Each node is assigned one of the blobs. -/
def samplePlan : List BroadcastSource :=
  sampleCoordinator.plan (allChunks 4096 sampleMount sampleBlobs)

def sampleEnds : Ends where
  fetch := some fun _ => .answered ⟨1, 4, []⟩
  broadcast := some fun
    | 0 => .ran ⟨1, 4, [], 1⟩
    | _ => .answered ⟨1, 4, [], 1⟩
  ring _ := .timeoutBefore

def nodeConfig (id : String) : NodeConfig := { sampleConfig with meId := id }

def sampleBroadcast (s : BroadcastSource) : Job :=
  .runBroadcastShard ⟨"m", others samplePlan s.nodeId⟩

/-- The node fetches its own blob from the origin, and then pulls the other one. -/
def sampleTurns (s : BroadcastSource) : List (Label (machine (nodeConfig s.nodeId))) :=
  shardTurns (.runShard ⟨"m", s.chunks⟩) ++ workerTurns 0 1 ++
    [.start (.inr (sampleBroadcast s))] ++ workerTurns 5 1 ++ workerTurns 6 2 ++
    [.run 6 { Choice.benign with
      fetch := { Choice.benign.fetch with peer := .ok [1, 2, 3, 4] } }] ++ workerTurns 6 3 ++
    workerTurns 7 1 ++ workerTurns 8 7 ++ workerTurns 7 6 ++ workerTurns 5 3

/-- The node has answered both requests. -/
def sampleAnswers (s : BroadcastSource) (c : Config (machine (nodeConfig s.nodeId))) : Bool :=
  c.answered 0 (.runShard ⟨"m", s.chunks⟩) (.shard ⟨1, 4, []⟩) &&
    c.answered 5 (sampleBroadcast s) (.broadcastShard ⟨1, 4, [], 1⟩)

theorem exists_sampleAnswers (id : String) :
    ∃ c : Config (machine (nodeConfig id)), ∀ s ∈ samplePlan, s.nodeId = id →
      Worked c (.runShard ⟨"m", s.chunks⟩) (.shard ⟨1, 4, []⟩) ∧
        Worked c (sampleBroadcast s) (.broadcastShard ⟨1, 4, [], 1⟩) := by
  by_cases hid : ∃ s ∈ samplePlan, s.nodeId = id
  · obtain ⟨s, hs, rfl⟩ := hid
    have hruns : ∀ s ∈ samplePlan, (Config.replay shardGate
        (.init (State.new (nodeConfig s.nodeId))) (sampleTurns s)).any (sampleAnswers s) := by
      decide +kernel
    obtain ⟨c, hrun, hc⟩ := Config.reach_of_replay (fun _ _ hgate => hgate) _ _ _ (hruns s hs)
    obtain ⟨hshard, hbroadcast⟩ := Bool.and_eq_true_iff.mp hc
    have hsame : ∀ s ∈ samplePlan, ∀ s' ∈ samplePlan, s'.nodeId = s.nodeId → s' = s := by
      decide +kernel
    refine ⟨c, fun s' hs' hid => ?_⟩
    cases hsame s hs s' hs' hid
    exact ⟨⟨0, hrun.mono (accounted_of_gate (.inr rfl)), Config.result_of_answered hshard⟩,
      ⟨5, hrun.mono (accounted_of_gate (.inl rfl)), Config.result_of_answered hbroadcast⟩⟩
  · exact ⟨.init (State.new (nodeConfig id)), fun s hs hs' => absurd ⟨s, hs, hs'⟩ hid⟩

theorem report_without_errors_fills_both :
    sampleCoordinator.targets.map (·.nodeId) = ["a", "b"] ∧
    ∃ node : (id : String) → Config (machine (nodeConfig id)),
      Faithful node "m" samplePlan sampleEnds ∧
      ∀ x ∈ allChunks 4096 sampleMount sampleBlobs, ∀ t ∈ sampleCoordinator.targets,
        Stored (node t.nodeId).state (keyOf sampleMount x) := by
  choose node hworked using exists_sampleAnswers
  have hfaithful : Faithful node "m" samplePlan sampleEnds := by
    refine ⟨?_, ?_, nofun⟩
    · rintro es ⟨⟩ s i hs r ⟨⟩
      exact (hworked _ s (List.fst_mem_of_mem_zipIdx hs) rfl).1
    · rintro es ⟨⟩ d i hd r hr
      obtain ⟨s, hs, rfl⟩ := List.mem_map.mp (List.fst_mem_of_mem_zipIdx hd)
      have hanswer : r = ⟨1, 4, [], 1⟩ := by
        cases i <;> rcases hr with ⟨⟨⟩⟩ | ⟨⟨⟩⟩ <;> rfl
      rw [hanswer]
      exact (hworked _ s hs rfl).2
  refine ⟨by decide +kernel, node, hfaithful, fun x hx => ?_⟩
  have hlisted : sampleCoordinator.listing sampleRequest = .ok (sampleMount, sampleBlobs) := rfl
  have hresp : sampleCoordinator.runCoordinator sampleRequest sampleEnds =
      .ok (sampleCoordinator.respond sampleRequest sampleMount sampleBlobs sampleEnds) := rfl
  have hmounts (id : String) : (nodeConfig id).mounts = sampleCoordinator.mounts := rfl
  exact (report_without_errors_fills hlisted hresp hmounts hfaithful nofun (by decide +kernel)
    hx).2 (by decide +kernel)

end BlobCache.Hydrate
