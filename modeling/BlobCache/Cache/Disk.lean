import BlobCache.Cache.Index

/-!
The disk cache as a shared object: the index, the counters, the cache
directory and the counter for temporary names, with the atomic operations
that the methods of `DiskCache` are made of. A lock-protected section is one
operation; so is every call into the file system.

The directory maps names to inodes, so that an open file survives a rename
over it and an unlink. A failed write may leave any part of the data behind.
Syncing has no effect here because power loss is not modelled.
-/

namespace BlobCache.Cache

structure Dir where
  names : FinMap String Nat
  inodes : List Bytes

namespace Dir

def empty : Dir := ⟨∅, []⟩

def content (d : Dir) (fd : Nat) : Bytes := d.inodes.getD fd []

/-- The content of the file of that name. -/
def file (d : Dir) (name : String) : Option Bytes := (d.names.get? name).map d.content

/-- `File::create`: an existing file is opened and truncated. -/
def create (d : Dir) (name : String) : Nat × Dir :=
  match d.names.get? name with
  | some fd => (fd, { d with inodes := d.inodes.set fd [] })
  | none => (d.inodes.length, ⟨d.names.insert name d.inodes.length, d.inodes ++ [[]]⟩)

def append (d : Dir) (fd : Nat) (data : Bytes) : Dir :=
  { d with inodes := d.inodes.set fd (d.content fd ++ data) }

/-- `rename`, replacing the target; `none` when the source does not exist. -/
def rename (d : Dir) (source target : String) : Option Dir :=
  (d.names.get? source).map fun fd =>
    { d with names := (d.names.erase source).insert target fd }

/-- `remove_file`. The names in `stuck` cannot be removed. -/
def unlink (d : Dir) (stuck : List String) (name : String) : Bool × Dir :=
  if (d.names.get? name).isSome && !stuck.contains name then
    (true, { d with names := d.names.erase name })
  else (false, d)

def unlinkAll (d : Dir) (stuck : List String) (names : List String) : Dir :=
  names.foldl (fun d name => (d.unlink stuck name).2) d

/-- The bytes of all files. -/
def bytes (d : Dir) : Nat := FinMap.total (fun fd => (d.content fd).length) d.names

section Files

variable {d : Dir} {name n : String}

theorem file_create (hnone : d.names.get? name = none)
    (hn : ∀ fd, d.names.get? n = some fd → fd < d.inodes.length) :
    (d.create name).2.file n = if n = name then some [] else d.file n := by
  by_cases hname : n = name
  · simp [file, create, hnone, hname, content]
  · cases hfd : d.names.get? n with
    | none => simp [file, create, hnone, FinMap.get?_insert, hname, hfd]
    | some fd =>
        simp [file, create, hnone, FinMap.get?_insert, hname, hfd, content,
          List.getElem?_append_left (hn fd hfd)]

theorem file_append {fd : Nat} (hn : d.names.get? n ≠ some fd) (data : Bytes) :
    (d.append fd data).file n = d.file n := by
  cases hfd : d.names.get? n with
  | none => simp [file, append, hfd]
  | some fd' =>
      have hne : fd ≠ fd' := by
        rintro rfl
        exact hn hfd
      simp [file, append, hfd, content, List.getElem?_set_ne hne]

theorem file_rename {target : String} {d' : Dir} (h : d.rename name target = some d') :
    d'.file n = if n = target then d.file name else if n = name then none else d.file n := by
  obtain ⟨fd, hfd, rfl⟩ := Option.map_eq_some_iff.mp h
  simp only [file, FinMap.get?_insert, FinMap.get?_erase]
  split
  · rw [hfd]
    rfl
  · split <;> rfl

theorem file_unlink (d : Dir) (name n : String) :
    (d.unlink [] name).2.file n = if n = name then none else d.file n := by
  unfold unlink
  split
  · simp only [file, FinMap.get?_erase]
    split <;> rfl
  · rename_i hgone
    split
    · rename_i hname
      have hnone : d.names.get? name = none := by simpa using hgone
      simp [file, hname, hnone]
    · rfl

theorem file_unlinkAll (d : Dir) (names : List String) (n : String) :
    (d.unlinkAll [] names).file n = if n ∈ names then none else d.file n := by
  induction names generalizing d with
  | nil => simp [unlinkAll]
  | cons name names ih =>
      change ((d.unlink [] name).2.unlinkAll [] names).file n = _
      rw [ih, file_unlink]
      by_cases hmem : n ∈ names
      · simp [hmem]
      · by_cases hname : n = name <;> simp [hmem, hname]

end Files

end Dir

structure CacheStats where
  hits : Nat
  misses : Nat
  evictions : Nat
  bytesInUse : Nat
  inserts : Nat
  reconcileDrops : Nat
  deriving DecidableEq, Repr

/-- What the disk cache is configured with, and the process id that goes into
temporary names. -/
structure DiskConfig where
  sha256 : Bytes → Digest
  maxBytes : Nat
  pid : Nat

def DiskConfig.nameOf (cfg : DiskConfig) (key : ChunkKey) : String :=
  key.cacheFilename cfg.sha256

/-- `lastInsert` is history: the thread whose `insert` last took the lock for
a key. -/
structure Disk where
  inner : Inner
  stats : CacheStats
  dir : Dir
  tmpSeq : Nat
  lastInsert : FinMap ChunkKey Nat

/-- The state after `DiskCache::open`, which purges the directory. -/
def Disk.opened : Disk := ⟨.empty, ⟨0, 0, 0, 0, 0, 0⟩, .empty, 0, ∅⟩

/-- What the environment decides in one operation: whether the call fails, how
much of a write is done before it fails, the clock, the files that cannot be
removed, and names that turn up while the directory is being walked. -/
structure DiskChoice where
  ioError : Bool
  written : Nat
  nanos : Nat
  stuck : List String
  late : List String
  deriving DecidableEq, Repr

def DiskChoice.benign : DiskChoice := ⟨false, 0, 0, [], []⟩

inductive DiskOp where
  | containsKey (key : ChunkKey)
  | entrySize (key : ChunkKey)
  | touchLru (key : ChunkKey)
  | countHit
  | countMiss
  | liveKeys
  | insertSection (key : ChunkKey) (size : Nat)
  | removeSection (key : ChunkKey)
  | reconcileSection (missing : List ChunkKey)
  | addReconcileDrops (dropped : Nat)
  | clearSection
  | tmpName
  | create (name : String)
  | writeAll (fd : Nat) (data : Bytes)
  | syncData (fd : Nat)
  | rename (tmp : String) (key : ChunkKey)
  | openFile (key : ChunkKey)
  | readToEnd (fd : Nat)
  | readExactAt (fd offset len : Nat)
  | pathExists (key : ChunkKey)
  | removeFile (key : ChunkKey)
  | readDir
  | unlink (name : String)
  deriving DecidableEq

def DiskOp.Resp : DiskOp → Type
  | .containsKey _ => Bool
  | .entrySize _ => Option Nat
  | .touchLru _ => Bool
  | .liveKeys => List ChunkKey
  | .reconcileSection _ => Nat × Nat
  | .clearSection => Nat × Nat
  | .tmpName => String
  | .create _ => Option Nat
  | .writeAll _ _ => Bool
  | .syncData _ => Bool
  | .rename _ _ => Bool
  | .openFile _ => Option Nat
  | .readToEnd _ => Option Bytes
  | .readExactAt _ _ _ => Option Bytes
  | .pathExists _ => Bool
  | .readDir => List String
  | .countHit | .countMiss | .insertSection _ _ | .removeSection _ | .addReconcileDrops _
  | .removeFile _ | .unlink _ => Unit

namespace Disk

variable (cfg : DiskConfig)

def countMiss (d : Disk) : Disk := { d with stats := { d.stats with misses := d.stats.misses + 1 } }

def countHit (d : Disk) : Disk := { d with stats := { d.stats with hits := d.stats.hits + 1 } }

/-- The index after the locked part of `insert`, with the keys evicted. -/
def afterInsert (d : Disk) (key : ChunkKey) (size : Nat) : Inner × List ChunkKey :=
  (d.inner.insertEntry key size).evictIfNeeded cfg.maxBytes

def insertSection (d : Disk) (t : Nat) (key : ChunkKey) (size : Nat) (stuck : List String) :
    Disk :=
  let (inner, victims) := d.afterInsert cfg key size
  { d with
    inner := inner
    dir := d.dir.unlinkAll stuck (victims.map cfg.nameOf)
    stats :=
      { d.stats with
        inserts := d.stats.inserts + 1
        evictions := d.stats.evictions + victims.length
        bytesInUse := inner.bytes }
    lastInsert := d.lastInsert.insert key t }

def removeSection (d : Disk) (key : ChunkKey) : Disk :=
  match d.inner.dropEntry key with
  | none => d
  | some (_, inner) =>
      { d with inner := inner, stats := { d.stats with bytesInUse := inner.bytes } }

/-- What is on the disk stays, and so does the history. -/
theorem removeSection_frame (d : Disk) (key : ChunkKey) :
    (d.removeSection key).dir = d.dir ∧ (d.removeSection key).lastInsert = d.lastInsert := by
  unfold removeSection
  split <;> exact ⟨rfl, rfl⟩

def reconcileSection (d : Disk) (missing : List ChunkKey) : (Nat × Nat) × Disk :=
  let (dropped, reclaimed, inner) := d.inner.reconcile 0 0 missing
  ((dropped, reclaimed),
    { d with inner := inner, stats := { d.stats with bytesInUse := inner.bytes } })

def touchLru (d : Disk) (key : ChunkKey) : Bool × Disk :=
  match d.inner.touchLru key with
  | (true, inner) => (true, { d with inner := inner })
  | (false, _) => (false, d.countMiss)

theorem touchLru_frame (d : Disk) (key : ChunkKey) :
    (d.touchLru key).2.dir = d.dir ∧ (d.touchLru key).2.lastInsert = d.lastInsert := by
  unfold touchLru
  split <;> exact ⟨rfl, rfl⟩

/-- The files removed by the loop of `clear_all`, counted as the source does. -/
def clearFiles (entries : FinMap ChunkKey Entry) (stuck : List String) (dir : Dir)
    (files bytes : Nat) : List ChunkKey → (Nat × Nat) × Dir
  | [] => ((files, bytes), dir)
  | k :: keys =>
      match entries.get? k with
      | none => clearFiles entries stuck dir files bytes keys
      | some e =>
          match dir.unlink stuck (cfg.nameOf k) with
          | (true, dir') =>
              clearFiles entries stuck dir' (files + 1) (saturatingAdd bytes e.size) keys
          | (false, dir') => clearFiles entries stuck dir' files bytes keys

def clearSection (d : Disk) (stuck : List String) : (Nat × Nat) × Disk :=
  let (counts, dir) :=
    clearFiles cfg d.inner.entries stuck d.dir 0 0 d.inner.entries.keys
  (counts,
    { d with
      inner := d.inner.clearAll, dir := dir, stats := { d.stats with bytesInUse := 0 } })

def create (d : Disk) (name : String) (c : DiskChoice) : Option Nat × Disk :=
  if c.ioError then (none, d)
  else (some (d.dir.create name).1, { d with dir := (d.dir.create name).2 })

def openFile (d : Disk) (key : ChunkKey) (c : DiskChoice) : Option Nat :=
  if c.ioError then none else d.dir.names.get? (cfg.nameOf key)

def readToEnd (d : Disk) (fd : Nat) (c : DiskChoice) : Option Bytes :=
  if c.ioError then none else some (d.dir.content fd)

/-- `write_all`: a failing write leaves some part of the data in the file. -/
def writeAll (d : Disk) (fd : Nat) (data : Bytes) (c : DiskChoice) : Bool × Disk :=
  if c.ioError then (false, { d with dir := d.dir.append fd (data.take c.written) })
  else (true, { d with dir := d.dir.append fd data })

def rename (d : Disk) (tmp : String) (key : ChunkKey) (c : DiskChoice) : Bool × Disk :=
  if c.ioError then (false, d)
  else
    match d.dir.rename tmp (cfg.nameOf key) with
    | none => (false, d)
    | some dir => (true, { d with dir := dir })

/-- `read_exact_at`: short files give an error. -/
def readExactAt (d : Disk) (fd offset len : Nat) (c : DiskChoice) : Option Bytes :=
  if c.ioError then none
  else if offset + len ≤ (d.dir.content fd).length then
    some (slice (d.dir.content fd) offset (offset + len))
  else none

section Succeeding

variable {cfg} {d : Disk} {c : DiskChoice}

theorem create_of_ok {name : String} (h : (d.create name c).1 ≠ none) :
    d.create name c = (some (d.dir.create name).1, { d with dir := (d.dir.create name).2 }) := by
  unfold create at h ⊢
  split at h
  · exact absurd rfl h
  · rw [if_neg (by assumption)]

theorem writeAll_of_ok {fd : Nat} {data : Bytes} (h : (d.writeAll fd data c).1 = true) :
    d.writeAll fd data c = (true, { d with dir := d.dir.append fd data }) := by
  unfold writeAll at h ⊢
  split at h
  · cases h
  · rw [if_neg (by assumption)]

theorem rename_of_ok {tmp : String} {key : ChunkKey} (h : (d.rename cfg tmp key c).1 = true) :
    ∃ dir, d.dir.rename tmp (cfg.nameOf key) = some dir ∧
      d.rename cfg tmp key c = (true, { d with dir := dir }) := by
  unfold rename at h ⊢
  cases hr : d.dir.rename tmp (cfg.nameOf key) with
  | none => simp [hr] at h
  | some dir =>
      simp only [hr] at h ⊢
      split at h
      · cases h
      · exact ⟨dir, rfl, if_neg (by assumption)⟩

end Succeeding

/-- One operation of thread `t`. -/
def exec (t : Nat) (c : DiskChoice) (d : Disk) : (o : DiskOp) → o.Resp × Disk
  | .containsKey key => ((d.inner.entries.get? key).isSome, d)
  | .entrySize key => ((d.inner.entries.get? key).map Entry.size, d)
  | .touchLru key => d.touchLru key
  | .countHit => ((), d.countHit)
  | .countMiss => ((), d.countMiss)
  | .liveKeys => (d.inner.entries.keys, d)
  | .insertSection key size => ((), d.insertSection cfg t key size c.stuck)
  | .removeSection key => ((), d.removeSection key)
  | .reconcileSection missing => d.reconcileSection missing
  | .addReconcileDrops n =>
      ((), { d with stats := { d.stats with reconcileDrops := d.stats.reconcileDrops + n } })
  | .clearSection => d.clearSection cfg c.stuck
  | .tmpName => (tmpName cfg.pid c.nanos d.tmpSeq, { d with tmpSeq := d.tmpSeq + 1 })
  | .create name => d.create name c
  | .writeAll fd data => d.writeAll fd data c
  | .syncData _ => (!c.ioError, d)
  | .rename tmp key => d.rename cfg tmp key c
  | .openFile key => (d.openFile cfg key c, d)
  | .readToEnd fd => (d.readToEnd fd c, d)
  | .readExactAt fd offset len => (d.readExactAt fd offset len c, d)
  | .pathExists key => (!c.ioError && (d.dir.names.get? (cfg.nameOf key)).isSome, d)
  | .removeFile key => ((), { d with dir := (d.dir.unlink c.stuck (cfg.nameOf key)).2 })
  | .readDir => (d.dir.names.keys ++ c.late, d)
  | .unlink name => ((), { d with dir := (d.dir.unlink c.stuck name).2 })

/-- Operations of any threads, one after the other. -/
def execAll (d : Disk) (ops : List (Nat × DiskChoice × DiskOp)) : Disk :=
  ops.foldl (fun d x => (d.exec cfg x.1 x.2.1 x.2.2).2) d

/-- Between sections the index satisfies its invariant, the published counter
agrees with it and the budget is kept. -/
structure IndexOk (d : Disk) : Prop where
  rep : Rep d.inner
  bytesInUse : d.stats.bytesInUse = d.inner.bytes
  budget : d.inner.bytes ≤ cfg.maxBytes

namespace IndexOk

variable {cfg} {d : Disk}

theorem opened : Disk.opened.IndexOk cfg := ⟨Rep.empty, rfl, Nat.zero_le _⟩

theorem insertSection (h : d.IndexOk cfg) (t : Nat) (key : ChunkKey) (size : Nat)
    (stuck : List String) : (d.insertSection cfg t key size stuck).IndexOk cfg where
  rep := (h.rep.insertEntry key size).evictIfNeeded cfg.maxBytes
  bytesInUse := rfl
  budget := (h.rep.insertEntry key size).evictIfNeeded_bytes_le cfg.maxBytes

/-- Dropping an entry frees bytes. -/
theorem dropEntry (h : d.IndexOk cfg) {key : ChunkKey} {size : Nat} {inner : Inner}
    (hd : d.inner.dropEntry key = some (size, inner)) :
    Rep inner ∧ inner.bytes ≤ cfg.maxBytes :=
  ⟨h.rep.dropEntry hd, (Inner.dropEntry_bytes_le hd).trans h.budget⟩

theorem removeSection (h : d.IndexOk cfg) (key : ChunkKey) :
    (d.removeSection key).IndexOk cfg := by
  unfold Disk.removeSection
  split
  · exact h
  · rename_i hd
    obtain ⟨hrep, hbudget⟩ := h.dropEntry hd
    exact ⟨hrep, rfl, hbudget⟩

theorem reconcileSection (h : d.IndexOk cfg) (missing : List ChunkKey) :
    (d.reconcileSection missing).2.IndexOk cfg where
  rep := h.rep.reconcile 0 0 missing
  bytesInUse := rfl
  budget := (Inner.reconcile_bytes_le d.inner 0 0 missing).trans h.budget

theorem touchLru (h : d.IndexOk cfg) (key : ChunkKey) : (d.touchLru key).2.IndexOk cfg := by
  have hrep := h.rep.touchLru key
  have hbytes : (d.inner.touchLru key).2.bytes = d.inner.bytes := by
    unfold Inner.touchLru
    split <;> rfl
  unfold Disk.touchLru
  split
  · rename_i inner heq
    rw [heq] at hrep hbytes
    exact ⟨hrep, h.bytesInUse.trans hbytes.symm, hbytes.trans_le h.budget⟩
  · exact ⟨h.rep, h.bytesInUse, h.budget⟩

theorem clearSection (h : d.IndexOk cfg) (stuck : List String) :
    (d.clearSection cfg stuck).2.IndexOk cfg :=
  ⟨h.rep.clearAll, rfl, Nat.zero_le _⟩

/-- Every operation of the disk cache leaves the index in order. -/
theorem exec (h : d.IndexOk cfg) (t : Nat) (c : DiskChoice) (o : DiskOp) :
    (d.exec cfg t c o).2.IndexOk cfg := by
  cases o with
  | touchLru key => exact h.touchLru key
  | insertSection key size => exact h.insertSection t key size c.stuck
  | removeSection key => exact h.removeSection key
  | reconcileSection missing => exact h.reconcileSection missing
  | clearSection => exact h.clearSection c.stuck
  | create name =>
      simp only [Disk.exec, Disk.create]
      split
      · exact h
      · exact ⟨h.rep, h.bytesInUse, h.budget⟩
  | writeAll fd data =>
      simp only [Disk.exec, Disk.writeAll]
      split
      · exact ⟨h.rep, h.bytesInUse, h.budget⟩
      · exact ⟨h.rep, h.bytesInUse, h.budget⟩
  | rename tmp key =>
      simp only [Disk.exec, Disk.rename]
      split
      · exact h
      · split
        · exact h
        · exact ⟨h.rep, h.bytesInUse, h.budget⟩
  | _ => exact ⟨h.rep, h.bytesInUse, h.budget⟩

theorem execAll (h : d.IndexOk cfg) (ops : List (Nat × DiskChoice × DiskOp)) :
    (d.execAll cfg ops).IndexOk cfg := by
  induction ops generalizing d with
  | nil => exact h
  | cons x ops ih => exact ih (h.exec x.1 x.2.1 x.2.2)

end IndexOk

section Sizes

variable {cfg} {d : Disk} (key k : ChunkKey)

/-- The size that the index records for a key. -/
def size? (d : Disk) (k : ChunkKey) : Option Nat := (d.inner.entries.get? k).map Entry.size

theorem size?_insertSection (t n : Nat) (stuck : List String) :
    (d.insertSection cfg t key n stuck).size? k =
      if k ∈ (d.afterInsert cfg key n).2 then none else if k = key then some n else d.size? k := by
  have hget : (d.afterInsert cfg key n).1.entries.get? k =
      if k ∈ (d.afterInsert cfg key n).2 then none
      else (d.inner.insertEntry key n).entries.get? k := Inner.evictLoop_get? _ _ _ _
  change ((d.afterInsert cfg key n).1.entries.get? k).map Entry.size = _
  rw [hget, Inner.insertEntry_get?]
  split
  · rfl
  · split <;> rfl

theorem mem_victims {n : Nat} (h : k ∈ (d.afterInsert cfg key n).2) :
    k = key ∨ d.size? k ≠ none := by
  have hget : (d.inner.insertEntry key n).entries.get? k ≠ none :=
    Inner.evictLoop_mem _ _ _ h
  rw [Inner.insertEntry_get?] at hget
  by_cases hk : k = key
  · exact .inl hk
  · rw [if_neg hk] at hget
    exact .inr (by simpa [size?] using hget)

theorem size?_removeSection :
    (d.removeSection key).size? k = if k = key then none else d.size? k := by
  unfold removeSection size?
  split
  · rename_i hnone
    have hkey := Inner.dropEntry_eq_none hnone
    split
    · rename_i hk
      rw [hk, hkey]
      rfl
    · rfl
  · rename_i hsome
    rw [Inner.dropEntry_entries hsome, FinMap.get?_erase]
    split <;> rfl

theorem size?_reconcileSection (missing : List ChunkKey) :
    (d.reconcileSection missing).2.size? k = if k ∈ missing then none else d.size? k := by
  change ((d.inner.reconcile 0 0 missing).2.2.entries.get? k).map Entry.size = _
  rw [Inner.reconcile_get?]
  split <;> rfl

theorem size?_touchLru : (d.touchLru key).2.size? k = d.size? k := by
  have hsize := Inner.touchLru_size d.inner key k
  unfold touchLru
  split
  · rename_i inner heq
    rw [heq] at hsize
    exact hsize
  · rfl

theorem size?_clearSection (stuck : List String) :
    (d.clearSection cfg stuck).2.size? k = none := by
  change (d.inner.clearAll.entries.get? k).map Entry.size = none
  rw [Inner.clearAll_entries]
  simp

/-- The index after an operation: an insert adds its key and may evict any, a
removal, a reconciliation and a clear drop keys, nothing else changes it. -/
def sizeAfter (cfg : DiskConfig) (d : Disk) (k : ChunkKey) : DiskOp → Option Nat
  | .insertSection key n =>
      if k ∈ (d.afterInsert cfg key n).2 then none else if k = key then some n else d.size? k
  | .removeSection key => if k = key then none else d.size? k
  | .reconcileSection missing => if k ∈ missing then none else d.size? k
  | .clearSection => none
  | _ => d.size? k

theorem size?_exec (t : Nat) (c : DiskChoice) (o : DiskOp) :
    (d.exec cfg t c o).2.size? k = sizeAfter cfg d k o := by
  cases o with
  | insertSection key n => exact size?_insertSection key k t n c.stuck
  | removeSection key => exact size?_removeSection key k
  | reconcileSection missing => exact size?_reconcileSection k missing
  | clearSection => exact size?_clearSection k c.stuck
  | touchLru key => exact size?_touchLru key k
  | create name =>
      simp only [exec, create]
      split <;> rfl
  | writeAll fd data =>
      simp only [exec, writeAll]
      split <;> rfl
  | rename tmp key =>
      simp only [exec, rename]
      split
      · rfl
      · split <;> rfl
  | _ => rfl

/-- A key in the index was there before or has just been inserted. -/
theorem size?_of_exec {t : Nat} {c : DiskChoice} {o : DiskOp} {n : Nat}
    (h : (d.exec cfg t c o).2.size? k = some n) :
    d.size? k = some n ∨ o = .insertSection k n := by
  rw [size?_exec] at h
  cases o with
  | insertSection key m =>
      simp only [sizeAfter] at h
      split at h
      · cases h
      · split at h
        · rename_i hk
          cases h
          exact .inr (by rw [hk])
        · exact .inl h
  | removeSection key | reconcileSection missing =>
      simp only [sizeAfter] at h
      split at h
      · cases h
      · exact .inl h
  | clearSection => cases h
  | _ => exact .inl h

end Sizes

end Disk

end BlobCache.Cache
