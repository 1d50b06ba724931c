import Mathlib.Data.List.Sort
import BlobCache.Bloom
import BlobCache.ChunkKey
import BlobCache.Data.FinMap

/-!
What a node advertises and what it knows of its peers: the local Bloom filter
with its version and the overlay of pending digests, the filters pulled from
peers, and the ranking of peers for a chunk. `me_bloom_version` of the
membership is kept here too, because the version hook is its only writer
besides the rebuild loop.

`snapshots` and `noted` are history: the keys that a rebuild in progress took
its snapshot of, by thread, and the threads that have completed
`note_local_insert`. No operation reads them.
-/

namespace BlobCache

/-- The fields of a member that the fetch path reads. -/
structure NodeInfo where
  id : String
  transportUrl : String
  ucxWorkerAddrB64 : Option String
  deriving DecidableEq, Repr

structure RemoteBloom where
  version : Nat
  bloom : Bloom

structure CandidateSet where
  yes : List NodeInfo
  maybe : List NodeInfo
  deriving DecidableEq, Repr

def hrwScore (sha256 : Bytes → Digest) (peerId : String) (digest : Digest) : Nat :=
  ofLeBytes ((sha256 (peerId.toUTF8.toList ++ digest.toList)).toList.take 8)

/-- `hrw_top_id`: the best score among this node and the live peers; the first
of equal scores wins. -/
def hrwTopId (sha256 : Bytes → Digest) (meId : String) (key : ChunkKey)
    (alive : List NodeInfo) : String :=
  let digest := keyDigest sha256 key
  (alive.foldl (fun (best : Nat × String) n =>
    let s := hrwScore sha256 n.id digest
    if best.1 < s then (s, n.id) else best) (hrwScore sha256 meId digest, meId)).2

structure PeerIndexConfig where
  sha256 : Bytes → Digest
  meId : String
  bloomBits : Nat

structure PeerIndex where
  version : Nat
  bloom : Bloom
  pending : List Digest
  remote : FinMap String RemoteBloom
  meBloomVersion : Nat
  snapshots : FinMap Nat (List ChunkKey)
  noted : List Nat

inductive IndexOp where
  | swapBloom (new : Bloom)
  | pushPending (digest : Digest)
  | bloomInsert (digest : Digest)
  | setBloomVersion (version : Nat)
  | localVersion
  | rankCandidates (key : ChunkKey) (alive : List NodeInfo) (maxYes maxMaybe : Nat)
  | dropRemote (peerId : String)
  | ingestRemote (peerId : String) (version : Nat) (bytes : Bytes)
  deriving DecidableEq

def IndexOp.Resp : IndexOp → Type
  | .swapBloom _ => Nat
  | .bloomInsert _ => Nat
  | .localVersion => Nat
  | .rankCandidates _ _ _ _ => CandidateSet
  | .ingestRemote _ _ _ => Bool
  | .pushPending _ | .setBloomVersion _ | .dropRemote _ => Unit

/-- The operations on the node's own filter. -/
def IndexOp.own : IndexOp → Bool
  | .swapBloom _ | .pushPending _ | .bloomInsert _ => true
  | _ => false

namespace PeerIndex

def new (cfg : PeerIndexConfig) : PeerIndex :=
  ⟨1, Bloom.new cfg.bloomBits, [], ∅, 0, ∅, []⟩

/-- The filter that `rebuild_local_from_cache` builds outside the lock. -/
def bloomOf (cfg : PeerIndexConfig) (keys : List ChunkKey) : Bloom :=
  (Bloom.new cfg.bloomBits).insertAll (keys.map (keyDigest cfg.sha256))

/-- The loop of `rank_candidates` over the peers in order of their score. -/
def rankLoop (p : PeerIndex) (digest : Digest) (maxYes maxMaybe : Nat) :
    CandidateSet → List NodeInfo → CandidateSet
  | acc, [] => acc
  | acc, n :: rest =>
      match p.remote.get? n.id with
      | some r =>
          if r.bloom.contains digest ∧ acc.yes.length < maxYes then
            p.rankLoop digest maxYes maxMaybe { acc with yes := acc.yes ++ [n] } rest
          else p.rankLoop digest maxYes maxMaybe acc rest
      | none =>
          if acc.maybe.length < maxMaybe then
            p.rankLoop digest maxYes maxMaybe { acc with maybe := acc.maybe ++ [n] } rest
          else p.rankLoop digest maxYes maxMaybe acc rest

def rankCandidates (cfg : PeerIndexConfig) (p : PeerIndex) (key : ChunkKey)
    (alive : List NodeInfo) (maxYes maxMaybe : Nat) : CandidateSet :=
  let digest := keyDigest cfg.sha256 key
  let scored := (alive.map fun n => (hrwScore cfg.sha256 n.id digest, n)).insertionSort
    fun a b => b.1 ≤ a.1
  p.rankLoop digest maxYes maxMaybe ⟨[], []⟩ (scored.map Prod.snd)

/-- The write-locked part of `rebuild_local_from_cache`: drain the overlay into
the new filter and swap it in. -/
def swapBloom (p : PeerIndex) (t : Nat) (new : Bloom) : Nat × PeerIndex :=
  let version := saturatingAdd p.version 1
  (version,
    { p with
      bloom := new.insertAll p.pending
      pending := []
      version := version
      snapshots := p.snapshots.erase t })

/-- The write-locked part of `note_local_insert`. -/
def bloomInsert (p : PeerIndex) (t : Nat) (digest : Digest) : Nat × PeerIndex :=
  let version := saturatingAdd p.version 1
  (version,
    { p with bloom := p.bloom.insert digest, version := version, noted := t :: p.noted })

def ingestRemote (p : PeerIndex) (peerId : String) (version : Nat) (bytes : Bytes) :
    Bool × PeerIndex :=
  match Bloom.fromBytes bytes with
  | some bloom => (true, { p with remote := p.remote.insert peerId ⟨version, bloom⟩ })
  | none => (false, p)

def localSnapshot (p : PeerIndex) : Nat × Bytes := (p.version, p.bloom.toBytes)

def remoteVersion (p : PeerIndex) (peerId : String) : Option Nat :=
  (p.remote.get? peerId).map RemoteBloom.version

/-- One operation of thread `t`. -/
def exec (cfg : PeerIndexConfig) (t : Nat) (p : PeerIndex) : (o : IndexOp) → o.Resp × PeerIndex
  | .swapBloom new => p.swapBloom t new
  | .pushPending digest => ((), { p with pending := p.pending ++ [digest] })
  | .bloomInsert digest => p.bloomInsert t digest
  | .setBloomVersion version => ((), { p with meBloomVersion := version })
  | .localVersion => (p.version, p)
  | .rankCandidates key alive maxYes maxMaybe =>
      (p.rankCandidates cfg key alive maxYes maxMaybe, p)
  | .dropRemote peerId => ((), { p with remote := p.remote.erase peerId })
  | .ingestRemote peerId version bytes => p.ingestRemote peerId version bytes

/-- Taking in a peer's filter changes nothing else. -/
theorem ingestRemote_eq (p : PeerIndex) (peerId : String) (version : Nat) (bytes : Bytes) :
    ∃ remote, (p.ingestRemote peerId version bytes).2 = { p with remote := remote } := by
  unfold ingestRemote
  split
  · exact ⟨_, rfl⟩
  · exact ⟨p.remote, rfl⟩

/-- The other operations leave the node's filter, its version and the overlay. -/
theorem exec_frame {cfg : PeerIndexConfig} {t : Nat} {p p' : PeerIndex} {o : IndexOp}
    {r : o.Resp} (hex : p.exec cfg t o = (r, p')) (ho : o.own = false) :
    ∃ remote version, p' = { p with remote := remote, meBloomVersion := version } := by
  have hp : p' = (p.exec cfg t o).2 := by rw [hex]
  rw [hp]
  cases o with
  | swapBloom new => cases ho
  | pushPending digest => cases ho
  | bloomInsert digest => cases ho
  | setBloomVersion version => exact ⟨p.remote, version, rfl⟩
  | dropRemote peerId => exact ⟨p.remote.erase peerId, p.meBloomVersion, rfl⟩
  | ingestRemote peerId version bytes =>
      obtain ⟨remote, heq⟩ := p.ingestRemote_eq peerId version bytes
      exact ⟨remote, p.meBloomVersion, heq⟩
  | _ => exact ⟨p.remote, p.meBloomVersion, rfl⟩

/-- The filter held for a peer changes only when it is taken in or dropped. -/
theorem exec_remote (cfg : PeerIndexConfig) (t : Nat) (p : PeerIndex) {o : IndexOp} (id : String)
    (ho : ∀ version bytes, o ≠ .ingestRemote id version bytes) :
    (p.exec cfg t o).2.remote.get? id =
      if o = .dropRemote id then none else p.remote.get? id := by
  cases o with
  | dropRemote peerId =>
      change (p.remote.erase peerId).get? id = _
      rw [FinMap.get?_erase]
      by_cases hid : id = peerId
      · simp [hid]
      · simp [hid, Ne.symm hid]
  | ingestRemote peerId version bytes =>
      have hid : id ≠ peerId := by
        rintro rfl
        exact ho version bytes rfl
      change (p.ingestRemote peerId version bytes).2.remote.get? id = _
      rw [if_neg nofun, ingestRemote]
      split
      · exact (FinMap.get?_insert _ _ _ _).trans (if_neg hid)
      · rfl
  | _ => rfl

theorem bloomOf_contains {cfg : PeerIndexConfig} {keys : List ChunkKey} {key : ChunkKey}
    (h : key ∈ keys) : (bloomOf cfg keys).contains (keyDigest cfg.sha256 key) = true :=
  Bloom.insertAll_contains (List.mem_map_of_mem h)

end PeerIndex

end BlobCache
