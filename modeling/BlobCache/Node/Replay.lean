import BlobCache.Node.Core

/-!
Replaying schedules. A schedule is checked step by step against a condition
that can be decided: which jobs start, what the origin answers, and that no
system call and no peer answers otherwise than the assumptions admit.

The sample node at the end is small enough to replay: two chunks of one blob,
with the digests that SHA-256 gives their keys.
-/

namespace BlobCache.Node

open Cache Conc

variable {cfg : NodeConfig}

instance diskSucceedsDecidable : (o : DiskOp) → (r : o.Resp) → Decidable (diskSucceeds o r)
  | .create _, r => (fun _ => inferInstance : (r : Option Nat) → Decidable (r ≠ none)) r
  | .writeAll _ _, r | .syncData _, r | .rename _ _, r =>
      (fun _ => inferInstance : (r : Bool) → Decidable (r = true)) r
  | .containsKey _, _ | .entrySize _, _ | .touchLru _, _ | .countHit, _ | .countMiss, _
  | .liveKeys, _ | .insertSection _ _, _ | .removeSection _, _ | .reconcileSection _, _
  | .addReconcileDrops _, _ | .clearSection, _ | .tmpName, _ | .openFile _, _
  | .readToEnd _, _ | .readExactAt _ _ _, _ | .pathExists _, _ | .removeFile _, _
  | .readDir, _ | .unlink _, _ => .isTrue trivial

/-- No peer delivers, no system call fails, and the origin answers with a chunk
that passes. -/
def opGate (cfg : NodeConfig) (answer : ChunkKey → Bytes → Bool) (s : State) (t : Nat) (o : Op)
    (c : Choice) : Bool :=
  match o with
  | .disk o => decide (diskSucceeds o (s.disk.exec cfg.disk t c.disk o).1)
  | .fetch (.peerFetch _) =>
      match c.fetch.peer with
      | .ok _ => false
      | .error _ => true
  | .fetch (.getRecv key) =>
      match c.fetch.origin with
      | .ok d => answer key d
      | .error _ => false
  | _ => true

def gate (start : Job → Bool) (answer : ChunkKey → Bytes → Bool) (s : State) :
    Event (machine cfg) → Bool
  | .start j => start j
  | .op t o c => opGate cfg answer s t o c
  | _ => true

theorem opGate_allowed {env : Env cfg} {answer : ChunkKey → Bytes → Bool}
    (hanswer : ∀ k d, answer k d = true → env.good k d) {s : State} {t : Nat} {o : Op}
    {c : Choice} (h : opGate cfg answer s t o c = true) : env.opAllowed s t o c := by
  cases o with
  | disk o => exact .inr (of_decide_eq_true h)
  | fetch o =>
      cases o with
      | peerFetch req =>
          simp only [opGate] at h
          split at h
          · cases h
          · rename_i heq
            simp [Env.opAllowed, heq]
      | getRecv key =>
          simp only [opGate] at h
          split at h
          · rename_i heq
            simpa [Env.opAllowed, heq] using hanswer _ _ h
          · cases h
      | _ => trivial
  | _ => trivial

theorem gate_allowed {env : Env cfg} (start : Job → Bool) (answer : ChunkKey → Bytes → Bool)
    (hstart : ∀ j, start j = true → env.jobOk j)
    (hanswer : ∀ k d, answer k d = true → env.good k d) (s : State) (e : Event (machine cfg))
    (h : gate start answer s e = true) : env.allowed s e := by
  cases e with
  | start j => exact hstart j h
  | op t o c => exact opGate_allowed hanswer h
  | _ => trivial

/-- SHA-256 on the keys of the sample. -/
def sampleSha256 (b : Bytes) : Digest :=
  if b = (⟨"m", "b", 0⟩ : ChunkKey).preimage then
    #v[33, 222, 167, 126, 98, 129, 223, 31, 148, 49, 68, 92, 212, 56, 249, 190,
      27, 15, 136, 72, 0, 194, 58, 185, 106, 51, 191, 227, 95, 46, 43, 100]
  else if b = (⟨"m", "b", 4096⟩ : ChunkKey).preimage then
    #v[64, 26, 12, 146, 110, 217, 58, 70, 221, 95, 34, 20, 166, 189, 252, 92,
      231, 205, 45, 253, 189, 185, 94, 176, 157, 57, 46, 118, 69, 149, 121, 181]
  else .replicate 32 0

def sampleMount : MountConfig := ⟨"m", "account", "container", ""⟩

def sampleConfig : NodeConfig where
  sha256 := sampleSha256
  base64Decode _ := none
  maxBytes := 65536
  pid := 1
  meId := "node"
  bloomBits := 64
  rdma := false
  chunkSize := 4096
  peerMaxYesAttempts := 1
  peerMaxMaybeAttempts := 1
  stampedeWaitMs := 0
  mounts := (∅ : FinMap String MountConfig).insert "m" sampleMount
  prefetchDepth := 0
  prefetchThreshold := 2
  prefetchOriginOnly := false
  cacheOnPeerFetch := false
  peerLruBytes := 0

/-- The keys of the two chunks. -/
def sampleKey (i : Nat) : ChunkKey := ⟨"m", "b", i * 4096⟩

def sampleKeys : Set ChunkKey := {sampleKey 0, sampleKey 1}

theorem sampleKeys_injOn : Set.InjOn sampleConfig.disk.nameOf sampleKeys := by
  have hne : sampleConfig.disk.nameOf (sampleKey 0) ≠ sampleConfig.disk.nameOf (sampleKey 1) := by
    decide +kernel
  rintro k (rfl | rfl) k' (rfl | rfl) h
  · rfl
  · exact absurd h hne
  · exact absurd h.symm hne
  · rfl

/-- A step of thread `t` in which the environment does nothing special. -/
def turn (t : Nat) : Label (machine cfg) := .run t Choice.benign

/-- The step in which the origin's answer arrives. -/
def originTurn (t : Nat) (d : Bytes) : Label (machine cfg) :=
  .run t { Choice.benign with fetch := { Choice.benign.fetch with origin := .ok d } }

def turns (t n : Nat) : List (Label (machine cfg)) := List.replicate n (turn t)

/-- Thread `t` fetches a chunk that nobody has up to the origin's answer; its
lookup on disk is thread `u`. -/
def missTurns (t u : Nat) : List (Label (machine cfg)) := turns t 3 ++ turns u 3 ++ turns t 5

/-- Thread `t` stores a chunk that was pushed to the node; the task and its
insert are the next two threads. -/
def storeTurns (t : Nat) : List (Label (machine cfg)) :=
  turns t 3 ++ turns (t + 1) 1 ++ turns (t + 2) 7 ++ turns (t + 1) 6

/-- A request for the first chunk, which has four bytes. -/
def sampleFetch : effect.Job := Job.fetchChunk sampleMount "b" 0 4

/-- Request 0 has asked the origin, and request 2 waits for it. -/
def followTurns : List (Label (machine sampleConfig)) :=
  [.start sampleFetch] ++ missTurns 0 1 ++ [.start sampleFetch] ++ turns 2 3 ++ turns 3 3 ++
    turns 2 2

end BlobCache.Node
