import BlobCache.Node.Notes
import BlobCache.Node.Replay

/-!
The index of the disk cache and the cache directory. The index keeps its
invariant in every run. It agrees with the directory when nothing is in
progress, as long as every section that adds or drops a key finds the file of
that key as the thread's own system call left it: `insert` renames and `remove`
unlinks before they take the lock, and `reconcile_with_disk` looks for the files
before it does.
-/

namespace BlobCache.Node

open Cache Conc

variable {cfg : NodeConfig}

/-- The index is in order in every state that any run reaches. -/
theorem indexOk_reach {G : State → Event (machine cfg) → Prop} {c : Config (machine cfg)}
    (hrun : Config.Reach G (.init (State.new cfg)) c) : c.state.disk.IndexOk cfg.disk := by
  apply disk_inv_reach (P := fun d => d.IndexOk cfg.disk) _ .opened hrun
  intro d t ch o hd
  exact hd.exec t ch o

/-- Whatever runs and whatever the environment does, the index is in order in
every state reached, and further sections of any kind leave it so. -/
theorem index_in_order {G : State → Event (machine cfg) → Prop} {c : Config (machine cfg)}
    (hrun : Config.Reach G (.init (State.new cfg)) c)
    (ops : List (Nat × DiskChoice × DiskOp)) :
    (c.state.disk.execAll cfg.disk ops).IndexOk cfg.disk :=
  (indexOk_reach hrun).execAll ops

/-- A chunk is inserted; later a large one evicts it, a reader comes back for
it, and a reconciliation with a stale list and a clear follow. -/
theorem index_in_order_across_eviction :
    ∃ c : Config (machine sampleConfig), c.state.disk.inner.bytes = 4 ∧
      (c.state.disk.execAll sampleConfig.disk
        [(1, .benign, .insertSection (sampleKey 1) 65536), (2, .benign, .touchLru (sampleKey 0)),
          (3, .benign, .reconcileSection [sampleKey 0, sampleKey 1]),
          (4, .benign, .clearSection)]).IndexOk sampleConfig.disk := by
  obtain ⟨c, hrun, hc⟩ := Config.reach_of_labels (M := machine sampleConfig)
    (.init (State.new sampleConfig)) ([.start (.insert (sampleKey 0) [1, 2, 3, 4])] ++ turns 0 7)
    (fun c => decide (c.state.disk.inner.bytes = 4)) (by decide +kernel)
  exact ⟨c, of_decide_eq_true hc, index_in_order hrun _⟩

/-- The file of a chunk. -/
def chunkFile (cfg : NodeConfig) (d : Disk) (k : ChunkKey) : Option Bytes :=
  d.dir.file (cfg.disk.nameOf k)

namespace FileUse

/-- The thread has renamed a file to the name of the chunk or has removed it,
and has not told the index. -/
def touches (k : ChunkKey) : FileUse → Prop
  | .renamed key _ | .unlinked key => key = k
  | _ => False

def brings (k : ChunkKey) : FileUse → Prop
  | .renamed key _ => key = k
  | _ => False

end FileUse

/-- The index and the directory agree up to what threads are about to do. -/
structure Mirror (env : Env cfg) (d : Disk) (use : Nat → FileUse) : Prop where
  known : ∀ k n, d.size? k = some n → k ∈ env.keys
  listed : ∀ k n, d.size? k = some n →
    (∃ b, chunkFile cfg d k = some b ∧ b.length = n) ∨ ∃ t, (use t).touches k
  stored : ∀ k ∈ env.keys, ∀ b, chunkFile cfg d k = some b →
    d.size? k ≠ none ∨ ∃ t, (use t).brings k
  names : ∀ name, d.dir.names.get? name ≠ none →
    (∃ k ∈ env.keys, name = cfg.disk.nameOf k) ∨ ∃ t, (use t).tmp? = some name

namespace Mirror

variable {env : Env cfg} {d d' : Disk} {use : Nat → FileUse} {t : Nat} {u : FileUse}

/-- One thread has moved to the use `u`, and the disk to `d'`. -/
theorem update (h : Mirror env d use)
    (hsize : ∀ k n, d'.size? k = some n → k ∈ env.keys ∧
      ((∃ b, chunkFile cfg d' k = some b ∧ b.length = n) ∨ u.touches k ∨
        d.size? k = some n ∧ chunkFile cfg d' k = chunkFile cfg d k ∧
          ((use t).touches k → u.touches k)))
    (hfile : ∀ k ∈ env.keys, ∀ b, chunkFile cfg d' k = some b →
      d'.size? k ≠ none ∨ u.brings k ∨
        chunkFile cfg d k = some b ∧ d.size? k = none ∧ ((use t).brings k → u.brings k))
    (hnames : ∀ name, d'.dir.names.get? name ≠ none →
      (∃ k ∈ env.keys, name = cfg.disk.nameOf k) ∨ u.tmp? = some name ∨
        d.dir.names.get? name ≠ none ∧ ((use t).tmp? = some name → u.tmp? = some name)) :
    Mirror env d' (Function.update use t u) := by
  -- a use that another thread has is still there
  have hother {p : FileUse → Prop} (hp : p (use t) → p u) (hex : ∃ t', p (use t')) :
      ∃ t', p (Function.update use t u t') := by
    obtain ⟨t', ht'⟩ := hex
    by_cases htt : t' = t
    · subst htt
      exact ⟨t', by simpa using hp ht'⟩
    · exact ⟨t', by simpa [htt] using ht'⟩
  have hself {p : FileUse → Prop} (hp : p u) : ∃ t', p (Function.update use t u t') :=
    ⟨t, by simpa using hp⟩
  refine ⟨fun k n hk => (hsize k n hk).1, ?_, ?_, ?_⟩
  · intro k n hk
    rcases (hsize k n hk).2 with hb | htouch | ⟨hold, hsame, hmove⟩
    · exact .inl hb
    · exact .inr (hself htouch)
    · rw [hsame]
      rcases h.listed k n hold with hb | hex
      · exact .inl hb
      · exact .inr (hother hmove hex)
  · intro k hk b hb
    rcases hfile k hk b hb with hn | hbring | ⟨hold, hnone, hmove⟩
    · exact .inl hn
    · exact .inr (hself hbring)
    · rcases h.stored k hk b hold with hn | hex
      · exact absurd hnone hn
      · exact .inr (hother hmove hex)
  · intro name hname
    rcases hnames name hname with hk | htmp | ⟨hold, hmove⟩
    · exact .inl hk
    · exact .inr (hself (p := fun u => u.tmp? = some name) htmp)
    · rcases h.names name hold with hk | hex
      · exact .inl hk
      · exact .inr (hother (p := fun u => u.tmp? = some name) hmove hex)

/-- Nothing has changed but the thread's own use and its temporary file. -/
theorem frame (h : Mirror env d use) (hsize : ∀ k, d'.size? k = d.size? k)
    (hchunk : ∀ k, chunkFile cfg d' k = chunkFile cfg d k)
    (hnames : ∀ name, d'.dir.names.get? name ≠ none → u.tmp? = some name ∨
      d.dir.names.get? name ≠ none ∧ ((use t).tmp? = some name → u.tmp? = some name))
    (htouches : ∀ k, (use t).touches k → u.touches k)
    (hbrings : ∀ k, (use t).brings k → u.brings k) :
    Mirror env d' (Function.update use t u) := by
  refine h.update ?_ ?_ fun name hname => .inr (hnames name hname)
  · intro k n hk
    rw [hsize] at hk
    exact ⟨h.known k n hk, .inr (.inr ⟨hk, hchunk k, htouches k⟩)⟩
  · intro k _ b hb
    rw [hchunk] at hb
    rw [hsize]
    by_cases hk : d.size? k = none
    · exact .inr (.inr ⟨hb, hk, hbrings k⟩)
    · exact .inl hk

/-- A temporary file is created. -/
theorem create (h : Mirror env d use) (hF : Files env d use) {name : String}
    (hu : use t = .named name) :
    Mirror env { d with dir := (d.dir.create name).2 }
      (Function.update use t (.writing name (d.dir.create name).1)) := by
  obtain ⟨hdrawn, hnone⟩ : FileOk env d (.named name) := hu ▸ hF.thread t
  refine h.frame (fun _ => rfl) ?_ ?_ (by simp [hu, FileUse.touches]) (by simp [hu, FileUse.brings])
  · intro k
    have hfile := Dir.file_create (n := cfg.disk.nameOf k) hnone (hF.inode _)
    rwa [if_neg (Ne.symm (hdrawn.ne_nameOf k))] at hfile
  · intro n hn
    simp only [Dir.create, hnone, FinMap.get?_insert] at hn
    split at hn
    · rename_i hname
      exact .inl (by rw [hname]; rfl)
    · rename_i hname
      refine .inr ⟨hn, ?_⟩
      rw [hu]
      rintro ⟨⟩
      exact absurd rfl hname

theorem append (h : Mirror env d use) (hF : Files env d use) {name : String} {fd : Nat}
    (hu : use t = .writing name fd) (data : Bytes) :
    Mirror env { d with dir := d.dir.append fd data }
      (Function.update use t (.written name fd data)) := by
  refine h.frame (fun _ => rfl) ?_ ?_ (by simp [hu, FileUse.touches]) (by simp [hu, FileUse.brings])
  · intro k
    apply Dir.file_append
    intro hn
    exact hF.chunk_out hn t (by rw [hu]; rfl)
  · intro n hn
    exact .inr ⟨hn, by rw [hu]; exact id⟩

/-- The step that makes a key's file. -/
theorem rename (h : Mirror env d use) (hinj : Set.InjOn cfg.disk.nameOf env.keys)
    (hF : Files env d use) {tmp : String} {fd : Nat} {key : ChunkKey} {data : Bytes}
    (hu : use t = .written tmp fd data) (hkey : key ∈ env.keys) {dir : Dir}
    (hr : d.dir.rename tmp (cfg.disk.nameOf key) = some dir) :
    Mirror env { d with dir := dir } (Function.update use t (.renamed key data)) := by
  have hok : FileOk env d (.written tmp fd data) := hu ▸ hF.thread t
  have hchunk {k : ChunkKey} (hk : k ∈ env.keys) (hne : k ≠ key) :
      chunkFile cfg { d with dir := dir } k = chunkFile cfg d k := by
    have hname : cfg.disk.nameOf k ≠ cfg.disk.nameOf key := fun heq => hne (hinj hk hkey heq)
    change dir.file _ = d.dir.file _
    rw [Dir.file_rename hr, if_neg hname, if_neg (Ne.symm (hok.1.drawn.ne_nameOf k))]
  refine h.update ?_ ?_ ?_
  · intro k n hk
    have hknown := h.known k n hk
    refine ⟨hknown, .inr ?_⟩
    by_cases hne : k = key
    · exact .inl hne.symm
    · exact .inr ⟨hk, hchunk hknown hne, by simp [hu, FileUse.touches]⟩
  · intro k hk b hb
    by_cases hne : k = key
    · exact .inr (.inl hne.symm)
    · rw [hchunk hk hne] at hb
      by_cases hnone : d.size? k = none
      · exact .inr (.inr ⟨hb, hnone, by simp [hu, FileUse.brings]⟩)
      · exact .inl hnone
  · intro name hname
    obtain ⟨fd', hfd', rfl⟩ := Option.map_eq_some_iff.mp hr
    simp only [FinMap.get?_insert, FinMap.get?_erase] at hname
    split at hname
    · rename_i heq
      exact .inl ⟨key, hkey, heq⟩
    · split at hname
      · exact absurd rfl hname
      · rename_i hne
        refine .inr (.inr ⟨hname, ?_⟩)
        rw [hu]
        rintro ⟨⟩
        exact absurd rfl hne

/-- The section of an insert whose file is still the one that it renamed, or
one of the same length. -/
theorem insertSection (h : Mirror env d use) (hinj : Set.InjOn cfg.disk.nameOf env.keys)
    {key : ChunkKey} {data b : Bytes} (hu : use t = .renamed key data) (hkey : key ∈ env.keys)
    (hb : chunkFile cfg d key = some b) :
    Mirror env (d.insertSection cfg.disk t key b.length [])
      (Function.update use t .idle) := by
  have hvictim {k : ChunkKey} (hk : k ∈ (d.afterInsert cfg.disk key b.length).2) :
      k ∈ env.keys := by
    rcases Disk.mem_victims key k hk with rfl | hsome
    · exact hkey
    · obtain ⟨n, hn⟩ := Option.ne_none_iff_exists'.mp hsome
      exact h.known k n hn
  have hchunk {k : ChunkKey} (hk : k ∈ env.keys) :
      chunkFile cfg (d.insertSection cfg.disk t key b.length []) k =
        if k ∈ (d.afterInsert cfg.disk key b.length).2 then none else chunkFile cfg d k := by
    have hmem : cfg.disk.nameOf k ∈ (d.afterInsert cfg.disk key b.length).2.map cfg.disk.nameOf ↔
        k ∈ (d.afterInsert cfg.disk key b.length).2 := by
      constructor
      · intro hname
        obtain ⟨k', hk', heq⟩ := List.mem_map.mp hname
        exact hinj hk (hvictim hk') heq.symm ▸ hk'
      · exact List.mem_map_of_mem
    change (d.dir.unlinkAll [] ((d.afterInsert cfg.disk key b.length).2.map cfg.disk.nameOf)).file
      (cfg.disk.nameOf k) = _
    rw [Dir.file_unlinkAll]
    simp only [hmem, chunkFile]
  refine h.update ?_ ?_ ?_
  · intro k n hk
    rw [Disk.size?_insertSection] at hk
    split at hk
    · cases hk
    · rename_i hkept
      split at hk
      · rename_i heq
        cases hk
        subst heq
        exact ⟨hkey, .inl ⟨b, by rw [hchunk hkey, if_neg hkept, hb], rfl⟩⟩
      · rename_i hne
        have hknown := h.known k n hk
        refine ⟨hknown, .inr (.inr ⟨hk, by rw [hchunk hknown, if_neg hkept], ?_⟩)⟩
        rw [hu]
        exact fun heq => absurd heq.symm hne
  · intro k hk b' hb'
    rw [hchunk hk] at hb'
    split at hb'
    · cases hb'
    · rename_i hkept
      rw [Disk.size?_insertSection, if_neg hkept]
      split
      · exact .inl (by simp)
      · rename_i hne
        by_cases hnone : d.size? k = none
        · refine .inr (.inr ⟨hb', hnone, ?_⟩)
          rw [hu]
          exact fun heq => absurd heq.symm hne
        · exact .inl hnone
  · intro name hname
    obtain ⟨fd, hfd⟩ := Option.ne_none_iff_exists'.mp hname
    have hold := (Files.Fewer.unlinkAll d.dir []
      ((d.afterInsert cfg.disk key b.length).2.map cfg.disk.nameOf)).names name fd hfd
    exact .inr (.inr ⟨by simp [hold], by simp [hu, FileUse.tmp?]⟩)

/-- A chunk's file is removed. -/
theorem removeFile (h : Mirror env d use) (hinj : Set.InjOn cfg.disk.nameOf env.keys)
    {key : ChunkKey} (hu : use t = .idle) (hkey : key ∈ env.keys) :
    Mirror env { d with dir := (d.dir.unlink [] (cfg.disk.nameOf key)).2 }
      (Function.update use t (.unlinked key)) := by
  have hchunk {k : ChunkKey} (hk : k ∈ env.keys) :
      chunkFile cfg { d with dir := (d.dir.unlink [] (cfg.disk.nameOf key)).2 } k =
        if k = key then none else chunkFile cfg d k := by
    change (d.dir.unlink [] (cfg.disk.nameOf key)).2.file (cfg.disk.nameOf k) = _
    rw [Dir.file_unlink]
    simp only [hinj.eq_iff hk hkey, chunkFile]
  refine h.update ?_ ?_ ?_
  · intro k n hk
    have hknown := h.known k n hk
    refine ⟨hknown, .inr ?_⟩
    by_cases hne : k = key
    · exact .inl hne.symm
    · exact .inr ⟨hk, by rw [hchunk hknown, if_neg hne], by simp [hu, FileUse.touches]⟩
  · intro k hk b hb
    rw [hchunk hk] at hb
    split at hb
    · cases hb
    · by_cases hnone : d.size? k = none
      · exact .inr (.inr ⟨hb, hnone, by simp [hu, FileUse.brings]⟩)
      · exact .inl hnone
  · intro name hname
    obtain ⟨fd, hfd⟩ := Option.ne_none_iff_exists'.mp hname
    have hold := (Files.Fewer.unlink d.dir [] (cfg.disk.nameOf key)).names name fd hfd
    exact .inr (.inr ⟨by simp [hold], by simp [hu, FileUse.tmp?]⟩)

/-- Keys whose files are gone are dropped from the index. -/
theorem drop (h : Mirror env d use) (gone : List ChunkKey) (hdir : d'.dir = d.dir)
    (hsize : ∀ k, d'.size? k = if k ∈ gone then none else d.size? k)
    (hgone : ∀ k ∈ gone, d.size? k ≠ none → chunkFile cfg d k = none)
    (htmp : ∀ name, (use t).tmp? = some name → u.tmp? = some name)
    (htouches : ∀ k, k ∉ gone → (use t).touches k → u.touches k)
    (hbrings : ∀ k, (use t).brings k → u.brings k) :
    Mirror env d' (Function.update use t u) := by
  have hchunk (k : ChunkKey) : chunkFile cfg d' k = chunkFile cfg d k := by
    simp only [chunkFile, hdir]
  refine h.update ?_ ?_ ?_
  · intro k n hk
    rw [hsize] at hk
    split at hk
    · cases hk
    · rename_i hkept
      exact ⟨h.known k n hk, .inr (.inr ⟨hk, hchunk k, htouches k hkept⟩)⟩
  · intro k _ b hb
    rw [hchunk] at hb
    rw [hsize]
    by_cases hnone : d.size? k = none
    · exact .inr (.inr ⟨hb, hnone, hbrings k⟩)
    · have hkept : k ∉ gone := by
        intro hmem
        rw [hgone k hmem hnone] at hb
        cases hb
      rw [if_neg hkept]
      exact .inl hnone
  · intro name hname
    rw [hdir] at hname
    exact .inr (.inr ⟨hname, htmp name⟩)

/-- A step that leaves the files and the index alone, of a thread that goes on as it was. -/
theorem same (h : Mirror env d use) (hdir : d'.dir = d.dir)
    (hsize : ∀ k, d'.size? k = d.size? k) : Mirror env d' (Function.update use t (use t)) := by
  refine h.frame hsize (fun k => by simp only [chunkFile, hdir]) ?_ (fun _ => id) fun _ => id
  intro name hname
  rw [hdir] at hname
  exact .inr ⟨hname, id⟩

/-- Such a step of a thread that has nothing in the directory, or only reads there. -/
theorem idle (h : Mirror env d use) (hu : use t = .idle ∨ ∃ k fd, use t = .reading k fd)
    (hdir : d'.dir = d.dir) (hsize : ∀ k, d'.size? k = d.size? k) :
    Mirror env d' (Function.update use t u) := by
  refine h.frame hsize (fun k => by simp only [chunkFile, hdir]) ?_ ?_ ?_
  · intro name hname
    rw [hdir] at hname
    rcases hu with hu | ⟨k, fd, hu⟩ <;> exact .inr ⟨hname, by simp [hu, FileUse.tmp?]⟩
  · rcases hu with hu | ⟨k, fd, hu⟩ <;> simp [hu, FileUse.touches]
  · rcases hu with hu | ⟨k, fd, hu⟩ <;> simp [hu, FileUse.brings]

end Mirror

/-- A section that adds or drops a key finds the key's file as it should be:
there and of the recorded length, or gone. -/
def sectionInStep (cfg : NodeConfig) (d : Disk) : DiskOp → Prop
  | .insertSection key n => (chunkFile cfg d key).map List.length = some n
  | .removeSection key => d.size? key ≠ none → chunkFile cfg d key = none
  | .reconcileSection missing => ∀ k ∈ missing, d.size? k ≠ none → chunkFile cfg d k = none
  | _ => True

/-- One operation, with no failing system call, of a thread that does not sweep
the directory. -/
theorem Mirror.exec {env : Env cfg} {d : Disk} {use : Nat → FileUse} {t : Nat} {l : Loc}
    {c : DiskChoice} {o : DiskOp} (h : Mirror env d use)
    (hinj : Set.InjOn cfg.disk.nameOf env.keys) (hF : Files env d use) (hl : use t = l.file)
    (hjob : env.jobOk l.job) (hsweep : l.job.sweeps = false) (hpre : diskPre env l o)
    (hok : diskSucceeds o (d.exec cfg.disk t c o).1) (hstuck : c.stuck = [])
    (hstep : sectionInStep cfg d o) :
    Mirror env (d.exec cfg.disk t c o).2
      (Function.update use t (diskNext l o (d.exec cfg.disk t c o).1).file) := by
  have hsize (k : ChunkKey) :
      (d.exec cfg.disk t c o).2.size? k = Disk.sizeAfter cfg.disk d k o :=
    Disk.size?_exec k t c o
  have hsame {d' : Disk} (hdir : d'.dir = d.dir) (hs : ∀ k, d'.size? k = d.size? k) :
      Mirror env d' (Function.update use t l.file) :=
    hl ▸ h.same hdir hs
  cases o with
  | tmpName => exact h.idle (.inl (hl.trans hpre)) rfl hsize
  | create name =>
      change Mirror env (d.create name c).2
        (Function.update use t (diskNext l (.create name) (d.create name c).1).file)
      rw [Disk.create_of_ok hok]
      exact h.create hF (hl.trans hpre)
  | writeAll fd data =>
      obtain ⟨name, hfile⟩ := hpre
      have hnext : (diskNext l (.writeAll fd data) true).file = .written name fd data := by
        simp [diskNext, hfile]
      change Mirror env (d.writeAll fd data c).2
        (Function.update use t (diskNext l (.writeAll fd data) (d.writeAll fd data c).1).file)
      rw [Disk.writeAll_of_ok hok, hnext]
      exact h.append hF (hl.trans hfile) data
  | syncData fd =>
      have hio : (!c.ioError) = true := hok
      change Mirror env d (Function.update use t (diskNext l (.syncData fd) (!c.ioError)).file)
      rw [hio]
      exact hsame rfl fun _ => rfl
  | rename tmp key =>
      obtain ⟨fd, data, -, hfile, hkey, -⟩ := hpre
      obtain ⟨dir, hr, hexec⟩ := Disk.rename_of_ok hok
      have hnext : (diskNext l (.rename tmp key) true).file = .renamed key data := by
        simp [diskNext, hfile]
      change Mirror env (d.rename cfg.disk tmp key c).2 (Function.update use t
        (diskNext l (.rename tmp key) (d.rename cfg.disk tmp key c).1).file)
      rw [hexec, hnext]
      exact h.rename hinj hF (hl.trans hfile) hkey hr
  | insertSection key n =>
      obtain ⟨data, hins, hfile, -, -⟩ := hpre
      obtain ⟨b, hb, rfl⟩ := Option.map_eq_some_iff.mp hstep
      rw [hins] at hjob
      change Mirror env (d.insertSection cfg.disk t key b.length c.stuck) _
      rw [hstuck]
      exact h.insertSection hinj (hl.trans hfile) hjob.1 hb
  | removeFile key =>
      obtain ⟨hfile, hrem⟩ := hpre
      rw [hrem] at hjob
      change Mirror env { d with dir := (d.dir.unlink c.stuck (cfg.disk.nameOf key)).2 } _
      rw [hstuck]
      exact h.removeFile hinj (hl.trans hfile) hjob
  | removeSection key =>
      have hu : use t = .unlinked key := hl.trans hpre.1
      refine h.drop [key] (d.removeSection_frame key).1 ?_ ?_ ?_ ?_ ?_
      · simpa [Disk.sizeAfter] using hsize
      · simpa [sectionInStep] using hstep
      · simp [hu, FileUse.tmp?]
      · intro k hk htouch
        rw [hu] at htouch
        exact absurd htouch.symm (by simpa using hk)
      · simp [hu, FileUse.brings]
  | reconcileSection missing =>
      change Mirror env _ (Function.update use t l.file)
      rw [← hl]
      exact h.drop missing rfl hsize hstep (fun _ => id) (fun _ _ => id) fun _ => id
  | openFile key => exact h.idle (.inl (hl.trans hpre.1)) rfl fun _ => rfl
  | readToEnd fd | readExactAt fd offset len =>
      obtain ⟨key, hfile⟩ := hpre
      exact h.idle (.inr ⟨key, fd, hl.trans hfile⟩) rfl fun _ => rfl
  | unlink name | clearSection => exact absurd hpre (by simp [diskPre, hsweep])
  | touchLru key => exact hsame (d.touchLru_frame key).1 hsize
  | _ => exact hsame rfl hsize

/-- Calls of the disk cache's own methods on the given keys. -/
def Job.cacheOp (keys : Set ChunkKey) : Job → Prop
  | .tryGet key | .tryGetRange key _ _ | .tryGetIntoSlice key _ | .insert key _ | .remove key =>
      key ∈ keys
  | .reconcileWithDisk | .clearAll => True
  | _ => False

/-- They run on blocking threads and start nothing. -/
theorem Job.cacheOp.async {keys : Set ChunkKey} {j : Job} (h : j.cacheOp keys) :
    j.async = false := by
  cases j <;> first | rfl | exact h.elim

theorem Job.cacheOp.not_spawn {keys : Set ChunkKey} {env : Env cfg} {l : Loc} {j : Job}
    (h : l.job.cacheOp keys) : ¬ env.spawnPre l j := by
  cases hjob : l.job <;> rw [hjob] at h <;>
    first | exact h.elim | (cases j <;> simp [Env.spawnPre, hjob, Job.expectedLen])

/-- The disk cache alone: no two keys in use share a file name, nothing is
fetched. -/
def cacheEnv (cfg : NodeConfig) (keys : Set ChunkKey) (hinj : Set.InjOn cfg.disk.nameOf keys)
    (good : ChunkKey → Bytes → Prop) (faults : Prop) : Env cfg where
  keys := keys
  good := good
  shared _ hk _ hk' hname _ hd := hinj hk hk' hname ▸ hd
  net := False
  originErr := False
  peerHit := False
  ioErr := faults

/-- No I/O error: the call does what it is for. -/
def calmOp (cfg : NodeConfig) (s : State) (t : Nat) (o : Op) (c : Choice) : Prop :=
  match o with
  | .disk o =>
      c.disk.ioError = false ∧ c.disk.stuck = [] ∧
        diskSucceeds o (s.disk.exec cfg.disk t c.disk o).1
  | _ => True

/-- Inserts, removals, reconciliations and reads on the given keys, with no I/O
error and with nobody else changing the directory. -/
def storeStep (keys : Set ChunkKey) (s : State) : Event (machine cfg) → Prop
  | .start j => Job.cacheOp keys j ∧ Job.sweeps j = false
  | .op t o c => calmOp cfg s t o c
  | _ => True

def inStep (s : State) : Event (machine cfg) → Prop
  | .op _ (.disk o) _ => sectionInStep cfg s.disk o
  | _ => True

section Runs

variable {keys : Set ChunkKey} {hinj : Set.InjOn cfg.disk.nameOf keys}

/-- Only such calls run, none is cancelled, and the index mirrors the
directory. -/
structure Mirrored (s : State)
    (ws : Views (discipline (cacheEnv cfg keys hinj (fun _ _ => True) False))) : Prop where
  calls : ∀ t v, ws t = some v →
    v.job.cacheOp keys ∧ v.job.sweeps = false ∧ Loc.dead v.loc = false
  mirror : Mirror (cacheEnv cfg keys hinj (fun _ _ => True) False) s.disk (filesOf ws)

theorem storeStep_respects (hinj : Set.InjOn cfg.disk.nameOf keys) :
    Respects (cacheEnv cfg keys hinj (fun _ _ => True) False) fun s e =>
      storeStep keys s e ∧ inStep s e where
  start s j hg _ := by
    have hop := hg.1.1
    cases j <;> first | exact hop.elim | exact ⟨hop, trivial⟩ | exact hop
  disk s t o c hg := .inr hg.1.2.2
  peer hnet := hnet.elim
  origin hnet := hnet.elim

/-- A thread moves on without touching a file. -/
theorem Mirrored.move {s s' : State}
    {ws : Views (discipline (cacheEnv cfg keys hinj (fun _ _ => True) False))} {t : Nat}
    {v v' : View (discipline (cacheEnv cfg keys hinj (fun _ _ => True) False))}
    (h : Mirrored s ws) (hv : ws t = some v) (hdisk : s'.disk = s.disk) (hjob : v'.job = v.job)
    (hfile : Loc.file v'.loc = Loc.file v.loc) (hdead : Loc.dead v'.loc = Loc.dead v.loc) :
    Mirrored s' (Function.update ws t (some v')) := by
  constructor
  · refine Views.forall_update h.calls ?_
    rw [hjob, hdead]
    exact h.calls t v hv
  · rw [filesOf_update, hdisk, hfile, Function.update_eq_self_iff.mpr (filesOf_eq hv).symm]
    exact h.mirror

theorem mirrored_keeps :
    Keeps (discipline (cacheEnv cfg keys hinj (fun _ _ => True) False))
      (fun s e => storeStep keys s e ∧ inStep s e)
      (Core (cacheEnv cfg keys hinj (fun _ _ => True) False)) Mirrored where
  start {s ws t j} _ h ht _ hg _ := by
    refine ⟨Views.forall_update h.calls ⟨hg.1.1, hg.1.2, rfl⟩, ?_⟩
    have hidle : filesOf ws t = .idle := by
      unfold filesOf
      rw [ht]
    rw [filesOf_update]
    change Mirror _ s.disk (Function.update (filesOf ws) t .idle)
    rw [Function.update_eq_self_iff.mpr hidle.symm]
    exact h.mirror
  op {s ws t v o c r s'} hC h hv hpre hg hex _ := by
    change exec cfg t o c s = some (r, s') at hex
    obtain ⟨hjob, -, -, hdead⟩ := discipline_next_frame
      (cacheEnv cfg keys hinj (fun _ _ => True) False) v.loc o r
    obtain ⟨hcall, hsweep, -⟩ := h.calls t v hv
    obtain ⟨hloc, hok⟩ := hC.job t v hv
    cases o with
    | disk o =>
        obtain ⟨hd, -, -⟩ := exec_disk hex
        refine ⟨Views.forall_update h.calls ?_, ?_⟩
        · exact ⟨hcall, hsweep, hdead.trans (h.calls t v hv).2.2⟩
        · have hnext := h.mirror.exec hinj hC.files (filesOf_eq hv) (c := c.disk) (o := o)
            (hloc.symm ▸ hok) (hloc.symm ▸ hsweep) hpre hg.1.2.2 hg.1.2.1 hg.2
          rw [hd] at hnext
          rw [filesOf_update]
          exact hnext
    | index o =>
        obtain ⟨snap, pushed, noted, hnext⟩ := indexNext_eq v.loc o r
        refine h.move hv (exec_index hex).2.1 rfl ?_ hdead
        change Loc.file (indexNext v.loc o r) = _
        rw [hnext]
    | fetch o =>
        obtain ⟨lead, asked, stored, rx, heard, hnext⟩ := fetchNext_eq v.loc o r
        refine h.move hv (exec_fetch hex).2.1 rfl ?_ hdead
        change Loc.file (fetchNext v.loc o r) = _
        rw [hnext]
    | snapshotKeys => exact h.move hv (exec_snapshotKeys hex).2.1 rfl rfl hdead
  spawn {s ws t v u j} hC h hv _ _ hpre _ := by
    have hcall := (h.calls t v hv).1
    rw [← (hC.job t v hv).1] at hcall
    exact absurd hpre hcall.not_spawn
  join _ h hv _ _ _ := h.move hv rfl rfl rfl rfl
  lost _ h hv _ _ _ := h.move hv rfl rfl rfl rfl
  cancel {s ws t v p} _ h hv hcan _ := by
    have hasync : v.job.async = true := (Bool.and_eq_true_iff.mp hcan).1
    rw [(h.calls t v hv).1.async] at hasync
    cases hasync

/-- Where nothing is in progress no thread uses a file. -/
theorem idle_of_quiescent {c : Config (machine cfg)} {s : State}
    {ws : Views (discipline (cacheEnv cfg keys hinj (fun _ _ => True) False))}
    (hA : Agree _ c.threads ws) (h : Mirrored s ws) (hquiet : c.quiescent = true) (t : Nat) :
    filesOf ws t = .idle := by
  cases hv : ws t with
  | none =>
      unfold filesOf
      rw [hv]
  | some v =>
      obtain ⟨th, hth, hok⟩ := hA.of_view hv
      have hfin := Config.finished_of_quiescent hquiet hth
      have hstatus := hok.status
      rw [filesOf_eq hv]
      cases hst : th.status with
      | running p => simp [Thread.finished, hst] at hfin
      | done x =>
          rw [hst] at hstatus
          exact hstatus.2.1.file
      | cancelled =>
          rw [hst] at hstatus
          obtain ⟨l, hl⟩ := hstatus
          have halive := (h.calls t v hv).2.2
          rw [hl] at halive
          cases halive

theorem Mirrored.new :
    Mirrored (State.new cfg)
      fun _ => (none : Option (View (discipline (cacheEnv cfg keys hinj (fun _ _ => True) False))))
    where
  calls t v hv := by cases hv
  mirror :=
    { known := fun k n hk => by cases hk
      listed := fun k n hk => by cases hk
      stored := fun k _ b hb => by cases hb
      names := fun name hname => absurd rfl hname }

/-- The directory holds the files of the keys in the index and nothing else. -/
theorem Mirror.bytes_le {env : Env cfg} {d : Disk} (h : Mirror env d fun _ => .idle) :
    d.dir.bytes ≤ FinMap.total Entry.size d.inner.entries := by
  apply FinMap.total_le_of_cover _ _ cfg.disk.nameOf
  intro name fd hfd
  rcases h.names name (by simp [hfd]) with ⟨k, hk, rfl⟩ | ⟨t, ht⟩
  · have hfile : chunkFile cfg d k = some (d.dir.content fd) := by
      simp [chunkFile, Dir.file, hfd]
    rcases h.stored k hk _ hfile with hsome | ⟨t, ht⟩
    · obtain ⟨n, hn⟩ := Option.ne_none_iff_exists'.mp hsome
      obtain ⟨e, he, rfl⟩ := Option.map_eq_some_iff.mp hn
      rcases h.listed k _ hn with ⟨b, hb, hlen⟩ | ⟨t, ht⟩
      · rw [hfile] at hb
        cases hb
        exact ⟨k, e, he, rfl, hlen.le⟩
      · exact ht.elim
    · exact ht.elim
  · cases ht

/-- In every run whose sections find the files in step, the index and the
directory agree when nothing is in progress, and the files fit the budget. -/
theorem index_agrees_with_directory (hinj : Set.InjOn cfg.disk.nameOf keys)
    {c : Config (machine cfg)}
    (hrun : Config.Reach (fun s e => storeStep keys s e ∧ inStep s e) (.init (State.new cfg)) c)
    (hquiet : c.quiescent = true) :
    (∀ k ∈ keys, c.state.disk.size? k = (chunkFile cfg c.state.disk k).map List.length) ∧
      (∀ k ∉ keys, c.state.disk.size? k = none) ∧ c.state.disk.dir.bytes ≤ cfg.maxBytes := by
  obtain ⟨ws, hA, -, hM⟩ := ((core_sound (storeStep_respects hinj)).and
    mirrored_keeps).reach ⟨(Settled.new _).core, .new⟩ hrun
  have hmirror := hM.mirror
  rw [show filesOf ws = fun _ => .idle from funext (idle_of_quiescent hA hM hquiet)] at hmirror
  refine ⟨?_, ?_, ?_⟩
  · intro k hk
    cases hsize : c.state.disk.size? k with
    | some n =>
        rcases hmirror.listed k n hsize with ⟨b, hb, rfl⟩ | ⟨t, ht⟩
        · rw [hb]
          rfl
        · exact ht.elim
    | none =>
        cases hfile : chunkFile cfg c.state.disk k with
        | none => rfl
        | some b =>
            rcases hmirror.stored k hk b hfile with hsome | ⟨t, ht⟩
            · exact absurd hsize hsome
            · exact ht.elim
  · intro k hk
    by_contra hsome
    obtain ⟨n, hn⟩ := Option.ne_none_iff_exists'.mp hsome
    exact hk (hmirror.known k n hn)
  · have hindex := indexOk_reach hrun
    calc c.state.disk.dir.bytes
        ≤ FinMap.total Entry.size c.state.disk.inner.entries := hmirror.bytes_le
      _ = c.state.disk.inner.bytes := hindex.rep.bytes.symm
      _ ≤ cfg.maxBytes := hindex.budget

end Runs

instance sectionInStepDecidable (d : Disk) : (o : DiskOp) → Decidable (sectionInStep cfg d o)
  | .insertSection key n =>
      inferInstanceAs (Decidable ((chunkFile cfg d key).map List.length = some n))
  | .removeSection key =>
      inferInstanceAs (Decidable (d.size? key ≠ none → chunkFile cfg d key = none))
  | .reconcileSection missing =>
      inferInstanceAs (Decidable (∀ k ∈ missing, d.size? k ≠ none → chunkFile cfg d k = none))
  | .containsKey _ | .entrySize _ | .touchLru _ | .countHit | .countMiss | .liveKeys
  | .addReconcileDrops _ | .clearSection | .tmpName | .create _ | .writeAll _ _ | .syncData _
  | .rename _ _ | .openFile _ | .readToEnd _ | .readExactAt _ _ _ | .pathExists _
  | .removeFile _ | .readDir | .unlink _ => .isTrue trivial

/-- The calls that the sample runs make. -/
def sampleCalls : List effect.Job :=
  [.insert (sampleKey 0) [1, 2, 3, 4], .insert (sampleKey 1) [5, 6, 7], .remove (sampleKey 0),
    Job.reconcileWithDisk]

def calmGate (s : State) (t : Nat) (o : Op) (c : Choice) : Bool :=
  match o with
  | .disk o =>
      !c.disk.ioError && decide (c.disk.stuck = []) &&
        decide (diskSucceeds o (s.disk.exec sampleConfig.disk t c.disk o).1)
  | _ => true

def storeGate (s : State) : Event (machine sampleConfig) → Bool
  | .start j => decide (j ∈ sampleCalls)
  | .op t o c => calmGate s t o c
  | _ => true

def inStepGate (s : State) (e : Event (machine sampleConfig)) : Bool :=
  storeGate s e &&
    match e with
    | .op _ (.disk o) _ => decide (sectionInStep sampleConfig s.disk o)
    | _ => true

theorem storeStep_of_gate {s : State} {e : Event (machine sampleConfig)}
    (h : storeGate s e = true) : storeStep sampleKeys s e := by
  cases e with
  | start j =>
      have hmem : j ∈ sampleCalls := of_decide_eq_true h
      rcases List.mem_cons.mp hmem with rfl | hmem
      · exact ⟨.inl rfl, rfl⟩
      rcases List.mem_cons.mp hmem with rfl | hmem
      · exact ⟨.inr rfl, rfl⟩
      rcases List.mem_cons.mp hmem with rfl | hmem
      · exact ⟨.inl rfl, rfl⟩
      rw [List.mem_singleton.mp hmem]
      exact ⟨trivial, rfl⟩
  | op t o c =>
      cases o with
      | disk o =>
          change (!(Choice.disk c).ioError && decide ((Choice.disk c).stuck = []) &&
            decide (diskSucceeds o (s.disk.exec sampleConfig.disk t (Choice.disk c) o).1)) =
              true at h
          simp only [Bool.and_eq_true, Bool.not_eq_true', decide_eq_true_eq] at h
          exact ⟨h.1.1, h.1.2, h.2⟩
      | _ => trivial
  | _ => trivial

theorem inStep_of_gate {s : State} {e : Event (machine sampleConfig)}
    (h : inStepGate s e = true) : storeStep sampleKeys s e ∧ inStep s e := by
  obtain ⟨hstore, hin⟩ := Bool.and_eq_true_iff.mp h
  refine ⟨storeStep_of_gate hstore, ?_⟩
  cases e with
  | op t o c =>
      cases o with
      | disk o =>
          change sectionInStep sampleConfig s.disk o
          exact of_decide_eq_true hin
      | _ => trivial
  | _ => trivial

/-- One chunk is inserted and removed, another inserted, and the index is
reconciled. -/
def orderlySchedule : List (Label (machine sampleConfig)) :=
  [.start (.insert (sampleKey 0) [1, 2, 3, 4])] ++ turns 0 7 ++
    [.start (.remove (sampleKey 0))] ++ turns 1 3 ++
    [.start (.insert (sampleKey 1) [5, 6, 7])] ++ turns 2 7 ++
    [.start .reconcileWithDisk] ++ turns 3 3

theorem index_agrees_with_directory_after_removal :
    ∃ c : Config (machine sampleConfig), c.quiescent = true ∧
      chunkFile sampleConfig c.state.disk (sampleKey 1) = some [5, 6, 7] ∧
      (∀ k ∈ sampleKeys, c.state.disk.size? k =
        (chunkFile sampleConfig c.state.disk k).map List.length) ∧
      (∀ k ∉ sampleKeys, c.state.disk.size? k = none) ∧
      c.state.disk.dir.bytes ≤ sampleConfig.maxBytes := by
  obtain ⟨c, hrun, hc⟩ := Config.reach_of_replay (G := inStepGate)
    (H := fun s e => storeStep sampleKeys s e ∧ inStep s e) (fun _ _ => inStep_of_gate)
    (.init (State.new sampleConfig)) orderlySchedule
    (fun c => c.quiescent &&
      decide (chunkFile sampleConfig c.state.disk (sampleKey 1) = some [5, 6, 7]))
    (by decide +kernel)
  obtain ⟨hquiet, hfile⟩ := Bool.and_eq_true_iff.mp hc
  exact ⟨c, hquiet, of_decide_eq_true hfile,
    index_agrees_with_directory sampleKeys_injOn hrun hquiet⟩

/-- A removal unlinks, an insert of the same key goes through, and then the
removal takes the lock. -/
def overtakenRemoval : List (Label (machine sampleConfig)) :=
  [.start (.remove (sampleKey 0))] ++ turns 0 1 ++
    [.start (.insert (sampleKey 0) [1, 2, 3, 4])] ++ turns 1 7 ++ turns 0 2

theorem overtaken_removal_leaves_orphan :
    Set.InjOn sampleConfig.disk.nameOf sampleKeys ∧
    ∃ c : Config (machine sampleConfig),
      Config.Reach (storeStep sampleKeys) (.init (State.new sampleConfig)) c ∧
      c.quiescent = true ∧ c.state.disk.size? (sampleKey 0) = none ∧
      chunkFile sampleConfig c.state.disk (sampleKey 0) = some [1, 2, 3, 4] := by
  obtain ⟨c, hrun, hc⟩ := Config.reach_of_replay (G := storeGate)
    (H := storeStep sampleKeys) (fun _ _ => storeStep_of_gate) (.init (State.new sampleConfig))
    overtakenRemoval
    (fun c => c.quiescent && decide (c.state.disk.size? (sampleKey 0) = none) &&
      decide (chunkFile sampleConfig c.state.disk (sampleKey 0) = some [1, 2, 3, 4]))
    (by decide +kernel)
  simp only [Bool.and_eq_true, decide_eq_true_eq] at hc
  exact ⟨sampleKeys_injOn, c, hrun, hc.1.1, hc.1.2, hc.2⟩

end BlobCache.Node
