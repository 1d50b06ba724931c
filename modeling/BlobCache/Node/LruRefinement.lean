import BlobCache.Cache.Recency
import BlobCache.Node.Sequential

/-!
The disk cache behaves like a map bounded by the bytes of its values that lets go
of the least recently used. Histories of calls, one after the other and without
I/O errors, are compared with a list of keys and data in the order of their last
use. The comparison has one exception: `try_get_range` answers a request for no
bytes before it looks at the key.
-/

namespace BlobCache.Node

open Cache Conc

/-! ## Histories -/

/-- The calls into a `DiskCache`. -/
inductive Call where
  | insert (key : ChunkKey) (data : Bytes)
  | tryGet (key : ChunkKey)
  | tryGetRange (key : ChunkKey) (rangeOffset rangeLen : Nat)
  | tryGetIntoSlice (key : ChunkKey) (dstLen : Nat)
  | remove (key : ChunkKey)
  | clearAll

namespace Call

def job : Call → Job
  | .insert key data => .insert key data
  | .tryGet key => .tryGet key
  | .tryGetRange key rangeOffset rangeLen => .tryGetRange key rangeOffset rangeLen
  | .tryGetIntoSlice key dstLen => .tryGetIntoSlice key dstLen
  | .remove key => .remove key
  | .clearAll => .clearAll

def key? : Call → Option ChunkKey
  | .insert key _ | .tryGet key | .tryGetRange key _ _ | .tryGetIntoSlice key _ | .remove key =>
      some key
  | .clearAll => none

end Call

/-- A call with the thread that makes it and what the environment contributes. -/
structure Invocation where
  t : Nat
  env : Op → Choice
  call : Call

/-- No system call fails and every file can be removed. -/
def Quiet (env : Op → Choice) : Prop :=
  ∀ o, (env o).disk.ioError = false ∧ (env o).disk.stuck = []

def Invocation.eval (cfg : NodeConfig) (i : Invocation) (s : State) : Option (Val × State) :=
  (body cfg i.call.job).evalWith (machine cfg) i.env i.t (fun _ _ => none) s

/-- The calls of a history one after the other, with their results. -/
def runCalls (cfg : NodeConfig) : List Invocation → State → Option (List Val × State)
  | [], s => some ([], s)
  | i :: rest, s => do
      let (v, s₁) ← i.eval cfg s
      let (vs, s₂) ← runCalls cfg rest s₁
      return (v :: vs, s₂)

/-! ## The reference -/

namespace Reference

/-- A request for a part of the data: a hit if the part lies inside. -/
def range (l : List (ChunkKey × Bytes)) (key : ChunkKey) (offset len : Nat) :
    Option Bytes × List (ChunkKey × Bytes) :=
  match Lru.get? l key with
  | none => (none, l)
  | some data =>
      if offset + len ≤ data.length then
        (some (slice data offset (offset + len)), Lru.touch l key)
      else (none, l)

/-- A request for all of the data into a buffer: a hit if the buffer has its size. -/
def intoSlice (l : List (ChunkKey × Bytes)) (key : ChunkKey) (dstLen : Nat) :
    Option (Nat × Bytes) × List (ChunkKey × Bytes) :=
  match Lru.get? l key with
  | none => (none, l)
  | some data =>
      if dstLen = data.length then (some (dstLen, data), Lru.touch l key) else (none, l)

/-- What a call returns and what the list is after it. -/
def step (maxBytes : Nat) (l : List (ChunkKey × Bytes)) :
    Call → Val × List (ChunkKey × Bytes)
  | .insert key data => (.done (.ok ()), Lru.insert List.length maxBytes l key data)
  | .tryGet key => (.cached (Lru.get? l key), Lru.touch l key)
  | .tryGetRange key rangeOffset rangeLen =>
      -- the exception
      if rangeLen = 0 then (.cached (some []), l)
      else
        let (r, l') := range l key rangeOffset rangeLen
        (.cached r, l')
  | .tryGetIntoSlice key dstLen =>
      let (r, l') := intoSlice l key dstLen
      (.filled r, l')
  | .remove key => (.done (.ok ()), Lru.erase l key)
  | .clearAll => (.cleared (.ok (l.length, min (Lru.total List.length l) u64Max)), [])

def run (maxBytes : Nat) : List Call → List (ChunkKey × Bytes) →
    List Val × List (ChunkKey × Bytes)
  | [], l => ([], l)
  | c :: rest, l =>
      let (v, l₁) := step maxBytes l c
      let (vs, l₂) := run maxBytes rest l₁
      (v :: vs, l₂)

end Reference

/-! ## The relation between the two -/

/-- The cache holds what the list says: the index has the keys with their sizes in
the same order, and the files have the data. -/
structure Holds (cfg : DiskConfig) (keys : Set ChunkKey) (d : Disk)
    (l : List (ChunkKey × Bytes)) : Prop where
  index : ∃ es, Ordered d.inner es ∧ Lru.mapVals Entry.size es = Lru.mapVals List.length l
  file : ∀ x ∈ l, d.dir.file (cfg.nameOf x.1) = some x.2
  keys : ∀ x ∈ l, x.1 ∈ keys
  sound : d.dir.Sound

namespace Holds

variable {cfg : DiskConfig} {keys : Set ChunkKey} {d : Disk} {l : List (ChunkKey × Bytes)}

theorem opened : Holds cfg keys .opened [] :=
  ⟨⟨[], .empty, rfl⟩, by simp, by simp, Dir.Sound.empty⟩

/-- The counters play no part. -/
theorem congr {d' : Disk} (h : Holds cfg keys d l) (hinner : d'.inner = d.inner)
    (hdir : d'.dir = d.dir) : Holds cfg keys d' l :=
  ⟨by rw [hinner]; exact h.index, by rw [hdir]; exact h.file, h.keys, by rw [hdir]; exact h.sound⟩

theorem size (h : Holds cfg keys d l) (key : ChunkKey) :
    (d.inner.entries.get? key).map Entry.size = (Lru.get? l key).map List.length := by
  obtain ⟨es, hes, hsizes⟩ := h.index
  rw [← hes.get?, ← Lru.get?_mapVals, hsizes, Lru.get?_mapVals]

theorem nodup (h : Holds cfg keys d l) : (l.map Prod.fst).Nodup := by
  obtain ⟨es, hes, hsizes⟩ := h.index
  rw [← Lru.keys_mapVals List.length l, ← hsizes, Lru.keys_mapVals]
  exact hes.nodup

theorem openFile (h : Holds cfg keys d l) {key : ChunkKey} {data : Bytes}
    (hget : Lru.get? l key = some data) :
    ∃ fd, d.dir.names.get? (cfg.nameOf key) = some fd ∧ d.dir.content fd = data := by
  have hfile := h.file _ (Lru.mem_of_get? hget)
  rw [Dir.file, Option.map_eq_some_iff] at hfile
  exact hfile

theorem touchLru (h : Holds cfg keys d l) {key : ChunkKey} {data : Bytes}
    (hget : Lru.get? l key = some data) :
    ∃ d', d.touchLru key = (true, d') ∧ Holds cfg keys d' (Lru.touch l key) := by
  obtain ⟨es, hes, hsizes⟩ := h.index
  have hsize := h.size key
  rw [hget, Option.map_some] at hsize
  obtain ⟨e, he, hlen⟩ := Option.map_eq_some_iff.mp hsize
  obtain ⟨htouched, hordered⟩ := hes.touchLru he
  refine ⟨{ d with inner := (d.inner.touchLru key).2 }, ?_, ⟨_, hordered, ?_⟩, ?_, ?_, h.sound⟩
  · have hpair : d.inner.touchLru key = (true, (d.inner.touchLru key).2) := Prod.ext htouched rfl
    rw [Disk.touchLru, hpair]
  · rw [Lru.touch, hget]
    simp only [Lru.mapVals_append, ← Lru.erase_mapVals, hsizes]
    simp [Lru.mapVals, hlen]
  · intro x hx
    exact h.file x (Lru.mem_of_mem_touch hx)
  · intro x hx
    exact h.keys x (Lru.mem_of_mem_touch hx)

theorem tracked (h : Holds cfg keys d l) (key : ChunkKey) :
    (d.inner.entries.get? key).isSome = (Lru.get? l key).isSome := by
  have hsize := congrArg Option.isSome (h.size key)
  simpa using hsize

/-- Two keys of the list have different files. -/
theorem nameOf_ne (hinj : Set.InjOn cfg.nameOf keys) (h : Holds cfg keys d l)
    {key : ChunkKey} (hkey : key ∈ keys) {x : ChunkKey × Bytes} (hx : x ∈ Lru.erase l key) :
    cfg.nameOf x.1 ≠ cfg.nameOf key := by
  obtain ⟨hmem, hne⟩ := Lru.mem_erase.mp hx
  intro heq
  exact hne (hinj (h.keys x hmem) hkey heq)

/-- `remove` unlinks the file and drops the entry. -/
theorem remove (hinj : Set.InjOn cfg.nameOf keys) (h : Holds cfg keys d l) {key : ChunkKey}
    (hkey : key ∈ keys) {stuck : List String} (hstuck : stuck = []) :
    Holds cfg keys
      (({ d with dir := (d.dir.unlink stuck (cfg.nameOf key)).2 } : Disk).removeSection key)
      (Lru.erase l key) := by
  subst hstuck
  obtain ⟨es, hes, hsizes⟩ := h.index
  have hsizes' : Lru.mapVals Entry.size (Lru.erase es key) =
      Lru.mapVals List.length (Lru.erase l key) := by
    rw [← Lru.erase_mapVals, hsizes, Lru.erase_mapVals]
  have hfile : ∀ x ∈ Lru.erase l key,
      (d.dir.unlink [] (cfg.nameOf key)).2.file (cfg.nameOf x.1) = some x.2 := by
    intro x hx
    rw [Dir.file_unlink, if_neg (h.nameOf_ne hinj hkey hx)]
    exact h.file x (Lru.mem_erase.mp hx).1
  have hkeys : ∀ x ∈ Lru.erase l key, x.1 ∈ keys :=
    fun x hx => h.keys x (Lru.mem_erase.mp hx).1
  unfold Disk.removeSection
  split
  · rename_i hnone
    have hgone := hes.erase_of_none (Inner.dropEntry_eq_none hnone)
    rw [hgone] at hsizes'
    exact ⟨⟨es, hes, hsizes'⟩, hfile, hkeys, h.sound.unlink [] _⟩
  · rename_i hdrop
    exact ⟨⟨_, hes.dropEntry hdrop, hsizes'⟩, hfile, hkeys, h.sound.unlink [] _⟩

/-- The locked part of `insert`, once the file is in place. -/
theorem insertSection (hinj : Set.InjOn cfg.nameOf keys) {key : ChunkKey} {data : Bytes}
    {es : List (ChunkKey × Entry)} (hes : Ordered d.inner es)
    (hsizes : Lru.mapVals Entry.size es = Lru.mapVals List.length l)
    (hfile : ∀ x ∈ Lru.erase l key ++ [(key, data)], d.dir.file (cfg.nameOf x.1) = some x.2)
    (hkeys : ∀ x ∈ Lru.erase l key ++ [(key, data)], x.1 ∈ keys) (hsound : d.dir.Sound)
    (t : Nat) {stuck : List String} (hstuck : stuck = []) :
    Holds cfg keys (d.insertSection cfg t key data.length stuck)
      (Lru.insert List.length cfg.maxBytes l key data) := by
  subst hstuck
  have hentry := hes.insertEntry key data.length
  have hall : Lru.mapVals Entry.size
      (Lru.erase es key ++ [(key, ⟨data.length, d.inner.seq + 1⟩)]) =
      Lru.mapVals List.length (Lru.erase l key ++ [(key, data)]) := by
    rw [Lru.mapVals_append, Lru.mapVals_append, ← Lru.erase_mapVals, ← Lru.erase_mapVals, hsizes]
    rfl
  generalize Lru.erase es key ++ [(key, ⟨data.length, d.inner.seq + 1⟩)] = all at hentry hall
  obtain ⟨hordered, gone, hsplit, hvictims⟩ := hentry.evictIfNeeded cfg.maxBytes
  have hfit : Lru.mapVals Entry.size (Lru.fit Entry.size cfg.maxBytes all) =
      Lru.mapVals List.length (Lru.insert List.length cfg.maxBytes l key data) := by
    have hall' := Lru.fit_mapVals Entry.size id cfg.maxBytes all
    rw [hall] at hall'
    exact hall'.symm.trans (Lru.fit_mapVals List.length id cfg.maxBytes _)
  have hkept : Lru.insert List.length cfg.maxBytes l key data <:+
      Lru.erase l key ++ [(key, data)] := Lru.fit_suffix _
  refine ⟨⟨_, hordered, hfit⟩, ?_, ?_, hsound.unlinkAll _ _⟩
  · intro x hx
    have hmem := hkept.subset hx
    change (d.dir.unlinkAll [] ((d.afterInsert cfg key data.length).2.map cfg.nameOf)).file _ = _
    rw [Dir.file_unlinkAll, if_neg]
    · exact hfile x hmem
    · -- a victim is another key, and so is its file
      intro hvictim
      rw [Disk.afterInsert, hvictims] at hvictim
      obtain ⟨k, hk, hname⟩ := List.mem_map.mp hvictim
      have hin : k ∈ keys := by
        have hold : k ∈ all.map Prod.fst := by
          rw [hsplit, List.map_append]
          exact List.mem_append_left _ hk
        rw [← Lru.keys_mapVals Entry.size, hall, Lru.keys_mapVals] at hold
        obtain ⟨y, hy, rfl⟩ := List.mem_map.mp hold
        exact hkeys y hy
      obtain rfl := hinj hin (hkeys x hmem) hname
      have hstays := List.mem_map_of_mem (f := Prod.fst) hx
      rw [← Lru.keys_mapVals List.length, ← hfit, Lru.keys_mapVals] at hstays
      have hnodup := hentry.nodup
      rw [hsplit, List.map_append] at hnodup
      exact (List.nodup_append.mp hnodup).2.2 _ hk _ hstays rfl
  · intro x hx
    exact hkeys x (hkept.subset hx)

/-- The directory when `insert` takes the lock: the data is under the name of the key,
and the temporary file is gone. -/
theorem placed (hinj : Set.InjOn cfg.nameOf keys) (h : Holds cfg keys d l) {key : ChunkKey}
    (hkey : key ∈ keys) (tmp : String) (htmp : ∀ k, tmp ≠ cfg.nameOf k) (data : Bytes) :
    ∃ dir, ((d.dir.create tmp).2.append (d.dir.create tmp).1 data).rename tmp (cfg.nameOf key) =
        some dir ∧ dir.Sound ∧
      ∀ x ∈ Lru.erase l key ++ [(key, data)], dir.file (cfg.nameOf x.1) = some x.2 := by
  have hnames := Dir.create_names d.dir tmp
  have hwritten := h.sound.file_create_append tmp data
  obtain ⟨dir, hdir⟩ : ∃ dir, ((d.dir.create tmp).2.append (d.dir.create tmp).1 data).rename tmp
      (cfg.nameOf key) = some dir :=
    Dir.exists_rename (d := (d.dir.create tmp).2.append (d.dir.create tmp).1 data) hnames _
  refine ⟨dir, hdir, ((h.sound.create tmp).append _ _).rename hdir, ?_⟩
  intro x hx
  rw [Dir.file_rename hdir]
  rcases List.mem_append.mp hx with hold | hlast
  · rw [if_neg (h.nameOf_ne hinj hkey hold), if_neg (htmp x.1).symm, hwritten,
      if_neg (htmp x.1).symm]
    exact h.file x (Lru.mem_erase.mp hold).1
  · rw [List.mem_singleton.mp hlast, if_pos rfl, hwritten, if_pos rfl]

end Holds

/-! ## The calls -/

section Calls

variable {cfg : NodeConfig} {keys : Set ChunkKey} {env : Op → Choice} {t : Nat}
  {child : Job → State → Option (Val × State)} {s : State} {l : List (ChunkKey × Bytes)}

/-- A call with the result `x.1` after which the cache holds `x.2`. -/
def Answers {α : Type} (cfg : NodeConfig) (keys : Set ChunkKey) (env : Op → Choice) (t : Nat)
    (child : Job → State → Option (Val × State)) (s : State) (p : NodeM α)
    (x : α × List (ChunkKey × Bytes)) : Prop :=
  p.Yields (machine cfg) env t child s fun r s' => r = x.1 ∧ Holds cfg.disk keys s'.disk x.2

/-- A miss is counted and nothing else happens. -/
theorem Holds.miss {α : Type} (h : Holds cfg.disk keys s.disk l) (r : α) :
    Answers cfg keys env t child s (disk .countMiss >>= fun _ => pure r) (r, l) := by
  refine yields_disk_bind fun _ d hexec => ?_
  cases hexec
  apply Program.Yields.pure
  exact ⟨rfl, h.congr rfl rfl⟩

/-- The end of every hit. -/
theorem Holds.hit {α : Type} (h : Holds cfg.disk keys s.disk l) {key : ChunkKey} {data : Bytes}
    (hget : Lru.get? l key = some data) (r : α) :
    Answers cfg keys env t child s
      (disk (.touchLru key) >>= fun touched : Bool =>
        if !touched then pure none else disk .countHit >>= fun _ => pure (some r))
      (some r, Lru.touch l key) := by
  obtain ⟨d', htouch, hd'⟩ := h.touchLru hget
  refine yields_disk_bind fun touched d hexec => ?_
  change s.disk.touchLru key = (touched, d) at hexec
  rw [htouch] at hexec
  cases hexec
  refine yields_disk_bind fun _ d hexec => ?_
  cases hexec
  apply Program.Yields.pure
  exact ⟨rfl, hd'.congr rfl rfl⟩

/-- The file of an entry is there and opens. -/
theorem Holds.opens {α : Type} (hquiet : Quiet env) (h : Holds cfg.disk keys s.disk l)
    {key : ChunkKey} {data : Bytes} (hget : Lru.get? l key = some data)
    {f : Option Nat → NodeM α} {x : α × List (ChunkKey × Bytes)}
    (hf : ∀ fd, s.disk.dir.content fd = data → Answers cfg keys env t child s (f (some fd)) x) :
    Answers cfg keys env t child s (disk (.openFile key) >>= f) x := by
  obtain ⟨fd, hfd, hcontent⟩ := h.openFile hget
  refine yields_disk_bind fun opened d hexec => ?_
  change (s.disk.openFile cfg.disk key _, s.disk) = (opened, d) at hexec
  rw [Disk.openFile, (hquiet _).1, if_neg Bool.false_ne_true, hfd] at hexec
  cases hexec
  exact hf fd hcontent

theorem tryGet_answers (hquiet : Quiet env) (h : Holds cfg.disk keys s.disk l) (key : ChunkKey) :
    Answers cfg keys env t child s (tryGet key) (Lru.get? l key, Lru.touch l key) := by
  have htracked := h.tracked key
  refine yields_disk_bind fun tracked d hexec => ?_
  cases hexec
  cases hget : Lru.get? l key with
  | none =>
      rw [hget] at htracked
      simp only [htracked, Lru.touch, hget]
      exact h.miss none
  | some data =>
      rw [hget] at htracked
      simp only [htracked, Option.isSome_some, Bool.not_true, Bool.false_eq_true, if_false]
      refine h.opens (x := (some data, _)) hquiet hget fun fd hcontent => ?_
      refine yields_disk_bind fun data' d hexec => ?_
      change (s.disk.readToEnd fd _, s.disk) = (data', d) at hexec
      rw [Disk.readToEnd, (hquiet _).1, if_neg Bool.false_ne_true, hcontent] at hexec
      cases hexec
      exact h.hit hget data

theorem readRange_answers (hquiet : Quiet env) (h : Holds cfg.disk keys s.disk l)
    {key : ChunkKey} {data : Bytes} (hget : Lru.get? l key = some data) (offset len : Nat) :
    Answers cfg keys env t child s (readRange key offset len)
      (Reference.range l key offset len) := by
  refine h.opens hquiet hget fun fd hcontent => ?_
  refine yields_disk_bind fun buf d hexec => ?_
  change (s.disk.readExactAt fd offset len _, s.disk) = (buf, d) at hexec
  rw [Disk.readExactAt, (hquiet _).1, if_neg Bool.false_ne_true, hcontent] at hexec
  simp only [Reference.range, hget]
  split at hexec
  · rename_i hfits
    cases hexec
    rw [if_pos hfits]
    exact h.hit hget _
  · rename_i hbeyond
    cases hexec
    rw [if_neg hbeyond]
    exact h.miss none

theorem tryGetRange_answers (hquiet : Quiet env) (h : Holds cfg.disk keys s.disk l)
    (key : ChunkKey) {rangeOffset rangeLen : Nat} (hlen : rangeLen ≠ 0) :
    Answers cfg keys env t child s (tryGetRange key rangeOffset rangeLen)
      (Reference.range l key rangeOffset rangeLen) := by
  have hsize := h.size key
  unfold tryGetRange
  rw [if_neg hlen]
  refine yields_disk_bind fun entrySize d hexec => ?_
  cases hexec
  cases hget : Lru.get? l key with
  | none =>
      rw [hget, Option.map_none] at hsize
      simp only [hsize, Reference.range, hget]
      exact h.miss none
  | some data =>
      rw [hget, Option.map_some] at hsize
      simp only [hsize]
      split
      · rename_i hbeyond
        have hnot : ¬ rangeOffset + rangeLen ≤ data.length := by
          simp only [saturatingAdd] at hbeyond
          omega
        simp only [Reference.range, hget, if_neg hnot]
        exact h.miss none
      · exact readRange_answers hquiet h hget rangeOffset rangeLen

theorem tryGetIntoSlice_answers (hquiet : Quiet env) (h : Holds cfg.disk keys s.disk l)
    (key : ChunkKey) (dstLen : Nat) :
    Answers cfg keys env t child s (tryGetIntoSlice key dstLen)
      (Reference.intoSlice l key dstLen) := by
  have hsize := h.size key
  unfold Reference.intoSlice
  refine yields_disk_bind fun entrySize d hexec => ?_
  cases hexec
  cases hget : Lru.get? l key with
  | none =>
      rw [hget, Option.map_none] at hsize
      simp only [hsize]
      exact h.miss none
  | some data =>
      rw [hget, Option.map_some] at hsize
      simp only [hsize]
      by_cases hlen : dstLen = data.length
      · have hwhole : Reference.range l key 0 data.length = (some data, Lru.touch l key) := by
          simp [Reference.range, hget, slice]
        simp only [hlen, ne_eq, not_true_eq_false, if_true, if_false]
        refine Program.Yields.bind (readRange_answers hquiet h hget 0 data.length) ?_
        rw [hwhole]
        rintro r s' ⟨rfl, hs'⟩
        apply Program.Yields.pure
        exact ⟨rfl, hs'⟩
      · simp only [ne_eq, hlen, not_false_eq_true, if_true, if_false]
        apply Program.Yields.pure
        exact ⟨rfl, h⟩

theorem remove_answers (hquiet : Quiet env) (hinj : Set.InjOn cfg.disk.nameOf keys)
    (h : Holds cfg.disk keys s.disk l) {key : ChunkKey} (hkey : key ∈ keys) :
    Answers cfg keys env t child s (remove key) (.ok (), Lru.erase l key) := by
  refine yields_disk_bind fun _ d hexec => ?_
  cases hexec
  refine yields_disk_bind fun _ d hexec => ?_
  cases hexec
  apply Program.Yields.pure
  exact ⟨rfl, h.remove hinj hkey (hquiet _).2⟩

theorem insert_answers (hquiet : Quiet env) (hinj : Set.InjOn cfg.disk.nameOf keys)
    (h : Holds cfg.disk keys s.disk l) {key : ChunkKey} (hkey : key ∈ keys) (data : Bytes) :
    Answers cfg keys env t child s (insert key data)
      (.ok (), Lru.insert List.length cfg.maxBytes l key data) := by
  obtain ⟨es, hes, hsizes⟩ := h.index
  have hkeys : ∀ x ∈ Lru.erase l key ++ [(key, data)], x.1 ∈ keys := by
    intro x hx
    rcases List.mem_append.mp hx with hold | hlast
    · exact h.keys x (Lru.mem_erase.mp hold).1
    · rw [List.mem_singleton.mp hlast]
      exact hkey
  obtain ⟨dir, hdir, hsound, hfile⟩ := h.placed hinj hkey
    (insertTmp cfg env s.disk) (fun k => tmpName_ne_nameOf cfg _ _ k) data
  refine yields_disk_bind fun tmp d hexec => ?_
  cases hexec
  refine yields_disk_bind fun fd d hexec => ?_
  simp only [Disk.exec, Disk.create, (hquiet _).1] at hexec
  cases hexec
  refine yields_disk_bind fun written d hexec => ?_
  simp only [Disk.exec, Disk.writeAll, (hquiet _).1] at hexec
  cases hexec
  refine yields_disk_bind fun synced d hexec => ?_
  simp only [Disk.exec, (hquiet _).1] at hexec
  cases hexec
  refine yields_disk_bind fun renamed d hexec => ?_
  have hplaced := (Disk.rename_of_dir (hquiet _).1 hdir).symm.trans hexec
  cases hplaced
  refine yields_disk_bind fun _ d hexec => ?_
  cases hexec
  apply Program.Yields.pure
  refine ⟨rfl, ?_⟩
  exact Holds.insertSection (d := { s.disk with dir := dir, tmpSeq := s.disk.tmpSeq + 1 }) hinj hes
    hsizes hfile hkeys hsound t (hquiet _).2

/-- What the loop of `clear_all` counts: every entry has its file. -/
theorem clearFiles_counts {cfg : DiskConfig} {entries : FinMap ChunkKey Entry} {dir : Dir}
    (hinj : Set.InjOn cfg.nameOf keys) (size : ChunkKey → Nat) (files bytes : Nat)
    (hbytes : bytes ≤ u64Max) (todo : List ChunkKey)
    (hentry : ∀ k ∈ todo, (entries.get? k).map Entry.size = some (size k)) (hnodup : todo.Nodup)
    (hkeys : ∀ k ∈ todo, k ∈ keys) (hfile : ∀ k ∈ todo, dir.file (cfg.nameOf k) ≠ none) :
    (Disk.clearFiles cfg entries [] dir files bytes todo).1 =
      (files + todo.length, min (bytes + (todo.map size).sum) u64Max) := by
  induction todo generalizing dir files bytes with
  | nil => simp [Disk.clearFiles, hbytes]
  | cons k todo ih =>
      obtain ⟨hk, hrest⟩ := List.nodup_cons.mp hnodup
      obtain ⟨e, he, hsize⟩ := Option.map_eq_some_iff.mp (hentry k List.mem_cons_self)
      have hunlink : dir.unlink [] (cfg.nameOf k) =
          (true, (dir.unlink [] (cfg.nameOf k)).2) := by
        have hthere : dir.names.get? (cfg.nameOf k) ≠ none := by
          intro hnone
          exact hfile k List.mem_cons_self (Dir.file_eq_none.mpr hnone)
        simp [Dir.unlink, Option.isSome_iff_ne_none, hthere]
      have hothers : ∀ k' ∈ todo,
          (dir.unlink [] (cfg.nameOf k)).2.file (cfg.nameOf k') ≠ none := by
        intro k' hk'
        have hne : cfg.nameOf k' ≠ cfg.nameOf k := by
          intro heq
          have hsame := hinj (hkeys k' (List.mem_cons_of_mem k hk'))
            (hkeys k List.mem_cons_self) heq
          exact hk (hsame ▸ hk')
        rw [Dir.file_unlink, if_neg hne]
        exact hfile k' (List.mem_cons_of_mem k hk')
      have hnext := ih (files + 1) (saturatingAdd bytes e.size) (Nat.min_le_right _ _)
        (fun k' hk' => hentry k' (List.mem_cons_of_mem k hk')) hrest
        (fun k' hk' => hkeys k' (List.mem_cons_of_mem k hk')) hothers
      rw [Disk.clearFiles, he]
      simp only
      rw [hunlink]
      simp only
      rw [hnext, List.map_cons, List.sum_cons, List.length_cons, saturatingAdd, hsize,
        Prod.mk.injEq]
      omega

/-- After the section only the sweep is left. -/
theorem sweep_answers (h : Holds cfg.disk keys s.disk []) (names : List String) :
    Answers cfg keys env t child s (sweep names) ((), []) := by
  induction names generalizing s with
  | nil => exact Program.Yields.pure ⟨rfl, h⟩
  | cons name names ih =>
      refine yields_disk_bind fun _ d hexec => ?_
      cases hexec
      exact ih ⟨h.index, by simp, by simp, h.sound.unlink _ _⟩

theorem clearAll_answers (hquiet : Quiet env) (hinj : Set.InjOn cfg.disk.nameOf keys)
    (h : Holds cfg.disk keys s.disk l) :
    Answers cfg keys env t child s clearAll
      (.ok (l.length, min (Lru.total List.length l) u64Max), []) := by
  obtain ⟨es, hes, hsizes⟩ := h.index
  have hsize (x : ChunkKey × Bytes) (hx : x ∈ l) :
      (s.disk.inner.entries.get? x.1).map Entry.size = some x.2.length := by
    rw [h.size, Lru.get?_of_mem h.nodup hx, Option.map_some]
  -- the keys of the index are those of the list
  have hperm : s.disk.inner.entries.keys.Perm (l.map Prod.fst) := by
    rw [List.perm_ext_iff_of_nodup (FinMap.nodup_keys _) h.nodup]
    intro k
    rw [FinMap.mem_keys_iff, ← Option.isSome_iff_exists, h.tracked, Lru.isSome_get?]
  have hlisted (k : ChunkKey) (hk : k ∈ s.disk.inner.entries.keys) : ∃ x ∈ l, x.1 = k :=
    List.mem_map.mp (hperm.mem_iff.mp hk)
  have hcounts : (Disk.clearFiles cfg.disk s.disk.inner.entries [] s.disk.dir 0 0
      s.disk.inner.entries.keys).1 = (l.length, min (Lru.total List.length l) u64Max) := by
    rw [clearFiles_counts hinj (fun k => ((Lru.get? l k).map List.length).getD 0) 0 0
      (Nat.zero_le _) s.disk.inner.entries.keys ?_ (FinMap.nodup_keys _) ?_ ?_]
    · rw [hperm.length_eq, (hperm.map _).sum_eq, List.length_map, List.map_map, Nat.zero_add,
        Nat.zero_add]
      congr 3
      apply List.map_congr_left
      intro x hx
      simp [Lru.get?_of_mem h.nodup hx]
    · intro k hk
      obtain ⟨x, hx, rfl⟩ := hlisted k hk
      rw [hsize x hx, Lru.get?_of_mem h.nodup hx]
      rfl
    · intro k hk
      obtain ⟨x, hx, rfl⟩ := hlisted k hk
      exact h.keys x hx
    · intro k hk
      obtain ⟨x, hx, rfl⟩ := hlisted k hk
      rw [h.file x hx]
      exact Option.some_ne_none _
  have hcleared : Holds cfg.disk keys (s.disk.clearSection cfg.disk
      (env (.disk .clearSection)).disk.stuck).2 [] :=
    ⟨⟨[], hes.clearAll, rfl⟩, by simp, by simp, Disk.sound_clearFiles _ _ h.sound _ _ _⟩
  refine yields_disk_bind fun counts d hexec => ?_
  cases hexec
  refine yields_disk_bind fun names d hexec => ?_
  cases hexec
  refine Program.Yields.bind (sweep_answers hcleared _) ?_
  rintro _ s' ⟨-, hs'⟩
  apply Program.Yields.pure
  refine ⟨?_, hs'⟩
  rw [← hcounts, ← (hquiet (.disk .clearSection)).2]

/-- A call as a job of the node wraps up its result. -/
theorem Answers.map {α : Type} {p : NodeM α} {x : α × List (ChunkKey × Bytes)}
    (h : Answers cfg keys env t child s p x) (f : α → Val) :
    Answers cfg keys env t child s (p >>= fun r => pure (f r)) (f x.1, x.2) := by
  refine Program.Yields.bind h ?_
  rintro r s' ⟨rfl, hs'⟩
  exact Program.Yields.pure ⟨rfl, hs'⟩

/-- One call does what one step of the reference does. -/
theorem call_answers (hquiet : Quiet env) (hinj : Set.InjOn cfg.disk.nameOf keys)
    (h : Holds cfg.disk keys s.disk l) (call : Call)
    (hkey : ∀ k, call.key? = some k → k ∈ keys) :
    Answers cfg keys env t child s (body cfg call.job) (Reference.step cfg.maxBytes l call) := by
  cases call with
  | insert key data => exact (insert_answers hquiet hinj h (hkey key rfl) data).map .done
  | tryGet key => exact (tryGet_answers hquiet h key).map .cached
  | tryGetRange key rangeOffset rangeLen =>
      simp only [Reference.step]
      by_cases hlen : rangeLen = 0
      · rw [if_pos hlen]
        subst hlen
        exact Program.Yields.pure ⟨rfl, h⟩
      · rw [if_neg hlen]
        exact (tryGetRange_answers hquiet h key hlen).map .cached
  | tryGetIntoSlice key dstLen =>
      exact (tryGetIntoSlice_answers hquiet h key dstLen).map .filled
  | remove key => exact (remove_answers hquiet hinj h (hkey key rfl)).map .done
  | clearAll => exact (clearAll_answers hquiet hinj h).map .cleared

end Calls

/-! ## The refinement -/

/-- The keys that the calls of a history name. -/
def historyKeys (history : List Invocation) : Set ChunkKey :=
  {k | ∃ i ∈ history, i.call.key? = some k}

variable {cfg : NodeConfig}

theorem runCalls_answers {keys : Set ChunkKey} (hinj : Set.InjOn cfg.disk.nameOf keys)
    {history : List Invocation} (hquiet : ∀ i ∈ history, Quiet i.env)
    (hkeys : historyKeys history ⊆ keys) {s : State} {l : List (ChunkKey × Bytes)}
    (h : Holds cfg.disk keys s.disk l) :
    ∃ s', runCalls cfg history s =
        some ((Reference.run cfg.maxBytes (history.map Invocation.call) l).1, s') ∧
      Holds cfg.disk keys s'.disk
        (Reference.run cfg.maxBytes (history.map Invocation.call) l).2 := by
  induction history generalizing s l with
  | nil => exact ⟨s, rfl, h⟩
  | cons i rest ih =>
      have hkey : ∀ k, i.call.key? = some k → k ∈ keys :=
        fun k hk => hkeys ⟨i, List.mem_cons_self, hk⟩
      have hcall : Answers cfg keys i.env i.t (fun _ _ => none) s (body cfg i.call.job)
          (Reference.step cfg.maxBytes l i.call) :=
        call_answers (hquiet i List.mem_cons_self) hinj h i.call hkey
      obtain ⟨v, s₁, heval, rfl, hs₁⟩ := hcall
      have hrest : historyKeys rest ⊆ keys := by
        rintro k ⟨i', hi', hk⟩
        exact hkeys ⟨i', List.mem_cons_of_mem i hi', hk⟩
      obtain ⟨s₂, hrun, hs₂⟩ := ih (fun i' hi' => hquiet i' (List.mem_cons_of_mem i hi')) hrest hs₁
      refine ⟨s₂, ?_, hs₂⟩
      change i.eval cfg s = _ at heval
      rw [runCalls, heval]
      change (runCalls cfg rest s₁).bind _ = _
      rw [hrun]
      rfl

theorem nameOf_injOn {keys : Set ChunkKey}
    (hkeys : ∀ k ∈ keys, 0 ∉ utf8 k.mount ∧ k.offset < 2 ^ 64)
    (hsha : ∀ k ∈ keys, ∀ k' ∈ keys,
      cfg.sha256 k.preimage = cfg.sha256 k'.preimage → k.preimage = k'.preimage) :
    Set.InjOn cfg.disk.nameOf keys := by
  intro k hk k' hk' hname
  have hdigest : keyDigest cfg.sha256 k = keyDigest cfg.sha256 k' :=
    (cacheFilename_eq_iff cfg.sha256 k k').mp hname
  exact ChunkKey.preimage_inj (hkeys k hk).1 (hkeys k' hk').1 (hkeys k hk).2 (hkeys k' hk').2
    (hsha k hk k' hk' hdigest)

/-- Every history of calls without I/O errors returns what the list says and leaves
the cache holding it. What an insert leaves is the longest end of the list that fits,
so the new entry stays exactly if it fits by itself. -/
theorem history_refines_lru (cfg : NodeConfig) (history : List Invocation)
    (hquiet : ∀ i ∈ history, Quiet i.env)
    (hkeys : ∀ k ∈ historyKeys history, 0 ∉ utf8 k.mount ∧ k.offset < 2 ^ 64)
    (hsha : ∀ k ∈ historyKeys history, ∀ k' ∈ historyKeys history,
      cfg.sha256 k.preimage = cfg.sha256 k'.preimage → k.preimage = k'.preimage) :
    (∃ s', runCalls cfg history (State.new cfg) =
        some ((Reference.run cfg.maxBytes (history.map Invocation.call) []).1, s') ∧
      Holds cfg.disk (historyKeys history) s'.disk
        (Reference.run cfg.maxBytes (history.map Invocation.call) []).2) ∧
    ∀ (l : List (ChunkKey × Bytes)) (key : ChunkKey) (data : Bytes),
      let all := Lru.erase l key ++ [(key, data)]
      let kept := Lru.insert List.length cfg.maxBytes l key data
      kept <:+ all ∧ Lru.total List.length kept ≤ cfg.maxBytes ∧
        (∀ u, u <:+ all → Lru.total List.length u ≤ cfg.maxBytes → u <:+ kept) ∧
        ((key, data) ∈ kept ↔ data.length ≤ cfg.maxBytes) := by
  constructor
  · exact runCalls_answers (nameOf_injOn hkeys hsha) hquiet (fun k hk => hk) Holds.opened
  · intro l key data
    exact ⟨Lru.fit_suffix _, Lru.total_fit_le _, fun u hu hfits => Lru.suffix_fit hu hfits,
      Lru.mem_fit_append_singleton⟩

/-- A node with room for four bytes. -/
def tinyConfig : NodeConfig := { sampleConfig with maxBytes := 4 }

/-- The second chunk pushes out the first. -/
def tinyHistory : List Invocation :=
  [.insert (sampleKey 0) [1, 2, 3], .tryGetRange (sampleKey 0) 1 2, .insert (sampleKey 1) [4, 5],
    .tryGet (sampleKey 0)].map fun call => ⟨0, fun _ => .benign, call⟩

theorem history_refines_lru_tiny :
    ∃ s', runCalls tinyConfig tinyHistory (State.new tinyConfig) =
      some ([.done (.ok ()), .cached (some [2, 3]), .done (.ok ()), .cached none], s') := by
  have hkey : ∀ k ∈ historyKeys tinyHistory, k = sampleKey 0 ∨ k = sampleKey 1 := by
    rintro k ⟨i, hi, hk⟩
    simp only [tinyHistory, List.map_cons, List.map_nil, List.mem_cons, List.not_mem_nil,
      or_false] at hi
    rcases hi with rfl | rfl | rfl | rfl <;> cases hk <;> simp
  have hdigest : tinyConfig.sha256 (sampleKey 0).preimage ≠
      tinyConfig.sha256 (sampleKey 1).preimage := by decide +kernel
  have hrefines := history_refines_lru tinyConfig tinyHistory ?_ ?_ ?_
  · obtain ⟨⟨s', hrun, -⟩, -⟩ := hrefines
    exact ⟨s', hrun⟩
  · intro i hi
    simp only [tinyHistory, List.mem_map] at hi
    obtain ⟨call, -, rfl⟩ := hi
    exact fun _ => ⟨rfl, rfl⟩
  · intro k hk
    rcases hkey k hk with rfl | rfl
    · decide
    · decide
  · intro k hk k' hk' hsame
    rcases hkey k hk with rfl | rfl <;> rcases hkey k' hk' with rfl | rfl
    · rfl
    · exact absurd hsame hdigest
    · exact absurd hsame.symm hdigest
    · rfl

/-- A request for no bytes is a hit for a key that was never inserted. -/
theorem empty_range_is_no_miss :
    (∃ s', (⟨0, fun _ => .benign, .tryGetRange (sampleKey 0) 7 0⟩ : Invocation).eval sampleConfig
        (State.new sampleConfig) = some (.cached (some []), s')) ∧
      Reference.range [] (sampleKey 0) 7 0 = (none, []) :=
  ⟨⟨_, rfl⟩, rfl⟩

end BlobCache.Node
