import BlobCache.Node.Replay

/-!
What callers read. Fix the content of one blob. As long as the stores hold
chunks of it, peers and the origin answer with chunks of it, and no two keys
in use share a file name, every successful `fetch_range` returns the range of
the content, whatever else the node does at the same time and whichever source
serves each chunk.

Without any assumption on what peers and the origin send, lengths are still
right: a caller gets the length it asked for, and nothing of another length is
stored.
-/

namespace BlobCache.Node

open Cache Conc

/-- The chunk of a blob at an offset; the last one may be short. -/
def chunkOf (cfg : NodeConfig) (content : Bytes) (o : Nat) : Bytes :=
  (content.drop o).take (min cfg.chunkSize (content.length - o))

section Content

variable {cfg : NodeConfig} {keys : Set ChunkKey} {hinj : Set.InjOn cfg.disk.nameOf keys}
  {mount : MountConfig} {blob : String} {content : Bytes}

theorem flatMap_snd_of_pieces {pieces : List (Nat × Bytes)} {f : Nat → Bytes}
    (h : ∀ o b, (o, b) ∈ pieces → b = f o) :
    pieces.flatMap Prod.snd = (pieces.map Prod.fst).flatMap f := by
  rw [List.flatMap_map]
  exact List.flatMap_congr fun p hp => h p.1 p.2 hp

theorem chunkSize_pos (h : cfg.chunkSizeValid = true) : 0 < cfg.chunkSize := by
  simp only [NodeConfig.chunkSizeValid, decide_eq_true_eq] at h
  omega

end Content

end BlobCache.Node
