import BlobCache.Conc.Guests
import BlobCache.Node.Reads
import BlobCache.Node.Replay

/-!
Chunks that may be cut short. A node that serves a chunk over RDMA reads as many bytes of the
file as its index gives, so a peer can be sent the beginning of a chunk; the fetcher then
compares lengths. Reads are right under this weaker idea of a good value as well: a range
lies within what was fetched, and a beginning agrees with the chunk wherever it has bytes.

The jobs of a server are guests of the node, and what it answers with is good in the same
sense.
-/

namespace BlobCache.Sharing

open Node Cache Conc

variable {cfg : NodeConfig}

/-- One blob has a known content, and every value for a chunk of it is a beginning of that
chunk. Nothing is assumed about other blobs. -/
def prefixEnv (cfg : NodeConfig) (keys : Set ChunkKey) (hinj : Set.InjOn cfg.disk.nameOf keys)
    (mount blob : String) (content : Bytes) : Env cfg where
  keys := keys
  good k d := k.mount = mount → k.blob = blob → d <+: chunkOf cfg content k.offset
  shared _ hk _ hk' hname _ hd := hinj hk hk' hname ▸ hd
  net := True
  originErr := True
  peerHit := True
  ioErr := True

section Content

variable {keys : Set ChunkKey} {hinj : Set.InjOn cfg.disk.nameOf keys} {mount : MountConfig}
  {blob : String} {content : Bytes}

/-- A beginning has the same slices, as far as it goes. -/
theorem slice_of_isPrefix {d c : Bytes} (h : d <+: c) {start stop : Nat}
    (hstop : stop ≤ d.length) : slice d start stop = slice c start stop := by
  obtain ⟨rest, rfl⟩ := h
  unfold slice
  by_cases hstart : start ≤ d.length
  · rw [List.drop_append_of_le_length hstart, List.take_append_of_le_length]
    rw [List.length_drop]
    omega
  · have hnone : stop - start = 0 := by omega
    rw [hnone, List.take_zero, List.take_zero]

theorem piece_of_prefix {o start len : Nat} {b : Bytes}
    (h : (prefixEnv cfg keys hinj mount.name blob content).rangeOk ⟨mount.name, blob, o⟩ start
      len b) :
    b = slice (chunkOf cfg content o) start (start + len) := by
  rcases h with ⟨hlen, hb⟩ | ⟨d, hgood, hin, hb⟩
  · simp [hb, hlen, slice]
  · rw [hb]
    exact slice_of_isPrefix (hgood rfl rfl) hin

/-- What a finished `fetch_range` is worth. -/
theorem content_of_valueOk (hvalid : cfg.chunkSizeValid = true)
    (hmax : content.length ≤ u64Max) {l : Loc} {offset length : Nat} {out : Bytes}
    (h : (prefixEnv cfg keys hinj mount.name blob content).valueOk l
      (.fetchRange mount blob offset length content.length) (.fetched (.ok out))) :
    out = slice content offset (min (offset + length) content.length) := by
  obtain ⟨r, hr, hok⟩ := h
  cases hr
  have hstop : min (saturatingAdd offset length) content.length =
      min (offset + length) content.length := by
    simp only [saturatingAdd]
    omega
  rcases hok out rfl with ⟨hnone, rfl⟩ | ⟨hlt, pieces, rfl, hoffsets, hpieces⟩
  · have hempty : min (offset + length) content.length - offset = 0 := by omega
    simp [slice, hempty]
  · rw [← hstop, flatMap_snd_of_pieces fun o b hb => piece_of_prefix (hpieces o b hb), hoffsets]
    exact rangeOffsets_cover content (chunkSize_pos hvalid) hlt (Nat.min_le_right _ _) hmax

/-- Two nodes with the same chunk size have the same good values. -/
theorem good_of_chunkSize {cfg' : NodeConfig} {hinj' : Set.InjOn cfg'.disk.nameOf keys}
    {m : String} {k : ChunkKey} {d : Bytes} (hsize : cfg'.chunkSize = cfg.chunkSize)
    (h : (prefixEnv cfg' keys hinj' m blob content).good k d) :
    (prefixEnv cfg keys hinj m blob content).good k d := by
  intro hm hb
  have hchunk : chunkOf cfg' content k.offset = chunkOf cfg content k.offset := by
    unfold chunkOf
    rw [hsize]
  exact hchunk ▸ h hm hb

/-- Part of a good value from its start is good. -/
theorem good_of_partOf {m : String} {k : ChunkKey} {n : Nat} {b : Bytes}
    (h : (prefixEnv cfg keys hinj m blob content).partOf k 0 n b) :
    (prefixEnv cfg keys hinj m blob content).good k b ∧ b.length = n := by
  obtain ⟨d, hgood, hin, rfl⟩ := h
  have hslice : slice d 0 (0 + n) = d.take n := by simp [slice]
  rw [hslice, List.length_take]
  refine ⟨fun hm hb => (List.take_prefix n d).trans (hgood hm hb), by omega⟩

end Content

/-- The node has `d` for a chunk: in its directory, among the writes that are on their way, or
among the chunks of peers that it keeps in memory. -/
def Holds (cfg : NodeConfig) (s : State) (k : ChunkKey) (d : Bytes) : Prop :=
  s.disk.dir.file (cfg.disk.nameOf k) = some d ∨ s.fetch.inflightWrites.get? k = some d ∨
    ∃ lru, s.fetch.peerLru = some lru ∧ lru.inner.get? k = some d

/-! ## Several nodes -/

/-- The blob that is read, and the keys of all chunks that are asked for. -/
structure Blob where
  mount : String
  name : String
  content : Bytes
  keys : Set ChunkKey

/-- What is assumed of the nodes together: they cut blobs in the same way, as their cluster hash
says, and the keys in use have different file names and offsets that fit. -/
structure Fits {ι : Type} (cfg : ι → NodeConfig) (b : Blob) : Prop where
  chunkSize : ∀ i j, (cfg i).chunkSize = (cfg j).chunkSize
  names : ∀ i, Set.InjOn (cfg i).disk.nameOf b.keys
  offsets : ∀ k ∈ b.keys, k.offset < 2 ^ 64

def envAt {ι : Type} {cfg : ι → NodeConfig} {b : Blob} (h : Fits cfg b) (i : ι) : Env (cfg i) :=
  prefixEnv (cfg i) b.keys (h.names i) b.mount b.name b.content

/-! ## Guests of a node -/

section Guests

variable {env : Env cfg} {X : Effect} {N : Extension (machine cfg) X}
  {Q : (discipline env).Guests X}

omit N Q in
theorem good_of_holds {s : State} {ws : Views (discipline env)} (h : Core env s ws)
    {k : ChunkKey} (hk : k ∈ env.keys) {d : Bytes} (hholds : Holds cfg s k d) : env.good k d := by
  rcases hholds with hfile | hwrites | ⟨lru, hlru, hget⟩
  · obtain ⟨fd, hfd, rfl⟩ := Option.map_eq_some_iff.mp hfile
    exact h.files.chunk k hk fd hfd
  · exact h.stores.writes k d hwrites
  · exact h.stores.lru lru hlru k d hget

/-- The node keeps its invariant while it serves. -/
theorem core_withGuests
    (hbody : ∀ j, env.jobOk (Q.host j) →
      (N.body j).Sat ((discipline env).withGuests Q N) ((discipline env).init (Q.host j))
        (Q.post j)) :
    Sound ((discipline env).withGuests Q N) (fun s e => env.allowed s (e.hosted Q))
      fun s ws => Core env s ws.hosted :=
  (core_sound (Env.allowed_respects fun _ _ h => h)).withGuests hbody (fun _ _ h => h)
    fun h hv => h.cancel hv

variable [DecidableEq X.Job]

theorem core_guests_reach
    (hbody : ∀ j, env.jobOk (Q.host j) →
      (N.body j).Sat ((discipline env).withGuests Q N) ((discipline env).init (Q.host j))
        (Q.post j))
    {c : Config ((machine cfg).extend N)}
    (h : Config.Reach (fun s e => env.allowed s (e.hosted Q)) (.init (State.new cfg)) c) :
    ∃ ws, Agree ((discipline env).withGuests Q N) c.threads ws ∧
      Core env c.state ws.hosted :=
  (core_withGuests hbody).reach (Settled.new env).core h

omit [DecidableEq X.Job] in
/-- What a finished job of the node returned. -/
theorem value_of_hosted {c : Config ((machine cfg).extend N)}
    {ws : Views ((discipline env).withGuests Q N)}
    (hA : Agree ((discipline env).withGuests Q N) c.threads ws) {t : Nat} {j : Job} {v : Val}
    (hjob : c.job t = some (.inl j)) (hdone : c.result t = some (.inl v)) :
    ∃ l, env.valueOk l j v := by
  obtain ⟨w, -, hpost⟩ := hA.post_of_result hjob hdone
  exact ⟨w.loc, hpost.2.2.2⟩

end Guests

/-- Every finished read of the blob at the node has returned the range of its content, and what
the node holds for it are beginnings of its chunks. -/
structure ReadsContent {X : Effect} {N : Extension (machine cfg) X} (b : Blob)
    (c : Config ((machine cfg).extend N)) : Prop where
  read : ∀ (mount : MountConfig) t offset length out, mount.name = b.mount →
    c.job t = some (.inl (.fetchRange mount b.name offset length b.content.length)) →
    c.result t = some (.inl (.fetched (.ok out))) →
    out = slice b.content offset (min (offset + length) b.content.length)
  held : ∀ k ∈ b.keys, k.mount = b.mount → k.blob = b.name →
    ∀ d, Holds cfg c.state k d → d <+: chunkOf cfg b.content k.offset

theorem readsContent_of_core {ι : Type} {cfg : ι → NodeConfig} {b : Blob} (h : Fits cfg b) (i : ι)
    {X : Effect} {N : Extension (machine (cfg i)) X} {Q : (discipline (envAt h i)).Guests X}
    (hvalid : (cfg i).chunkSizeValid = true) (hmax : b.content.length ≤ u64Max)
    {c : Config ((machine (cfg i)).extend N)}
    {ws : Views ((discipline (envAt h i)).withGuests Q N)}
    (hagree : Agree ((discipline (envAt h i)).withGuests Q N) c.threads ws)
    (hcore : Core (envAt h i) c.state ws.hosted) : ReadsContent b c where
  read mount t offset length out hmount hjob hdone := by
    obtain ⟨l, hval⟩ := value_of_hosted hagree hjob hdone
    unfold envAt at hval
    rw [← hmount] at hval
    exact content_of_valueOk hvalid hmax hval
  held _ hk hmount hblob _ hholds := good_of_holds hcore hk hholds hmount hblob

/-! ### A blob of one chunk -/

def sampleBlob : Blob := ⟨"m", "b", [1, 2, 3, 4], sampleKeys⟩

def sampleRead : Node.Job := .fetchRange sampleMount "b" 0 4 4

/-- The jobs of the samples: a read, and a push of the chunk. -/
def sampleJob (j : Node.Job) : Bool :=
  decide (j = sampleRead ∨ j = .insertReceivedChunk (sampleKey 0) [1, 2, 3, 4])

theorem sampleJob_ok {ι : Type} {cfg : ι → NodeConfig} (h : Fits cfg sampleBlob) {i : ι}
    (hsize : (cfg i).chunkSize = 4096) {j : Node.Job} (hj : sampleJob j = true) :
    (envAt h i).jobOk j := by
  have hchunk : chunkOf (cfg i) sampleBlob.content 0 = [1, 2, 3, 4] := by
    rw [chunkOf, hsize]
    rfl
  rcases of_decide_eq_true hj with rfl | rfl
  · refine ⟨trivial, by omega, by decide, ?_⟩
    intro n hn
    have hzero : n * (cfg i).chunkSize % 2 ^ 64 = 0 := by
      change n * (cfg i).chunkSize % 2 ^ 64 < 4 at hn
      rw [hsize] at hn ⊢
      omega
    change (⟨"m", "b", n * (cfg i).chunkSize % 2 ^ 64⟩ : ChunkKey) ∈ sampleKeys
    rw [hzero]
    exact .inl rfl
  · refine ⟨.inl rfl, fun _ _ => ?_⟩
    change [1, 2, 3, 4] <+: chunkOf (cfg i) sampleBlob.content 0
    rw [hchunk]

end BlobCache.Sharing
