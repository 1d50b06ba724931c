import BlobCache.Node.Discipline

/-!
The cache directory under concurrent access. A temporary file belongs to the
thread that named it until it is renamed; what lies under the name of a chunk,
and what a reader has open, is a complete good value that nobody writes to.
-/

namespace BlobCache.Node

open Cache Conc

namespace FileUse

/-- The temporary name that a thread owns. -/
def tmp? : FileUse → Option String
  | .named tmp | .writing tmp _ | .written tmp _ _ => some tmp
  | _ => none

/-- The inode that a thread writes to. -/
def out? : FileUse → Option Nat
  | .writing _ fd | .written _ fd _ => some fd
  | _ => none

/-- The inode that a thread has open. -/
def fd? : FileUse → Option Nat
  | .writing _ fd | .written _ fd _ | .reading _ fd => some fd
  | _ => none

theorem fd?_of_out? {u : FileUse} {fd : Nat} (h : u.out? = some fd) : u.fd? = some fd := by
  cases u <;> simp_all [out?, fd?]

/-- Two threads do not share a temporary name, and what one writes the other
does not have open. -/
structure Apart (u v : FileUse) : Prop where
  tmp : ∀ name, u.tmp? = some name → v.tmp? ≠ some name
  left : ∀ fd, u.out? = some fd → v.fd? ≠ some fd
  right : ∀ fd, v.out? = some fd → u.fd? ≠ some fd

theorem Apart.symm {u v : FileUse} (h : u.Apart v) : v.Apart u :=
  ⟨fun name hv hu => h.tmp name hu hv, h.right, h.left⟩

/-- A use that owns nothing and has nothing open. -/
def Free (u : FileUse) : Prop := u.tmp? = none ∧ u.fd? = none

theorem out?_of_free {u : FileUse} (h : u.Free) : u.out? = none := by
  cases u <;> simp_all [Free, fd?, out?]

theorem Apart.of_free {u v : FileUse} (h : u.Free) : u.Apart v := by
  constructor
  · simp [h.1]
  · simp [out?_of_free h]
  · simp [h.2]

end FileUse

variable {cfg : NodeConfig}

/-- A name that some thread of this process has drawn. -/
def Drawn (cfg : NodeConfig) (d : Disk) (name : String) : Prop :=
  ∃ n q, name = tmpName cfg.pid n q ∧ q < d.tmpSeq

/-- The file that a thread writes is its own. -/
structure Owned (cfg : NodeConfig) (d : Disk) (name : String) (fd : Nat) : Prop where
  drawn : Drawn cfg d name
  lt : fd < d.dir.inodes.length
  only : ∀ n, d.dir.names.get? n = some fd → n = name
  own : ∀ fd', d.dir.names.get? name = some fd' → fd' = fd

def FileOk (env : Env cfg) (d : Disk) : FileUse → Prop
  | .named name => Drawn cfg d name ∧ d.dir.names.get? name = none
  | .writing name fd => Owned cfg d name fd ∧ d.dir.content fd = []
  | .written name fd data => Owned cfg d name fd ∧ d.dir.content fd = data
  | .reading k fd => fd < d.dir.inodes.length ∧ env.good k (d.dir.content fd)
  | _ => True

/-- The directory and the files that the threads use. -/
structure Files (env : Env cfg) (d : Disk) (use : Nat → FileUse) : Prop where
  inode : ∀ n fd, d.dir.names.get? n = some fd → fd < d.dir.inodes.length
  chunk : ∀ k ∈ env.keys, ∀ fd, d.dir.names.get? (cfg.disk.nameOf k) = some fd →
    env.good k (d.dir.content fd)
  fresh : ∀ n q, d.tmpSeq ≤ q → d.dir.names.get? (tmpName cfg.pid n q) = none
  thread : ∀ t, FileOk env d (use t)
  apart : ∀ t t', t ≠ t' → (use t).Apart (use t')

theorem tmpName_ne_nameOf (cfg : NodeConfig) (nanos q : Nat) (k : ChunkKey) :
    tmpName cfg.pid nanos q ≠ cfg.disk.nameOf k :=
  tmpName_ne_cacheFilename _ _ _ _ _

theorem Drawn.ne_nameOf {d : Disk} {name : String} (h : Drawn cfg d name) (k : ChunkKey) :
    name ≠ cfg.disk.nameOf k := by
  obtain ⟨n, q, rfl, -⟩ := h
  exact tmpName_ne_nameOf cfg n q k

theorem FileOk.of_free {env : Env cfg} {d : Disk} {u : FileUse} (h : u.Free) :
    FileOk env d u := by
  cases u <;> simp_all [FileUse.Free, FileUse.tmp?, FileUse.fd?, FileOk]

theorem FileOk.drawn {env : Env cfg} {d : Disk} {u : FileUse} {name : String}
    (h : FileOk env d u) (hu : u.tmp? = some name) : Drawn cfg d name := by
  cases u with
  | named tmp => cases hu; exact h.1
  | writing tmp fd => cases hu; exact h.1.drawn
  | written tmp fd data => cases hu; exact h.1.drawn
  | _ => cases hu

theorem FileOk.fd_lt {env : Env cfg} {d : Disk} {u : FileUse} {fd : Nat} (h : FileOk env d u)
    (hu : u.fd? = some fd) : fd < d.dir.inodes.length := by
  cases u with
  | writing tmp fd => cases hu; exact h.1.lt
  | written tmp fd data => cases hu; exact h.1.lt
  | reading k fd => cases hu; exact h.1
  | _ => cases hu

theorem FileOk.only {env : Env cfg} {d : Disk} {u : FileUse} {fd : Nat} (h : FileOk env d u)
    (hu : u.out? = some fd) {n : String} (hn : d.dir.names.get? n = some fd) :
    u.tmp? = some n := by
  cases u with
  | writing tmp fd => cases hu; rw [h.1.only n hn]; rfl
  | written tmp fd data => cases hu; rw [h.1.only n hn]; rfl
  | _ => cases hu

/-- What a thread knows stays true when the names under which it knows
something are touched by nobody else, and neither is its inode. -/
theorem FileOk.frame {env : Env cfg} {d d' : Disk} {u : FileUse} (h : FileOk env d u)
    (hseq : d.tmpSeq ≤ d'.tmpSeq) (hlen : d.dir.inodes.length ≤ d'.dir.inodes.length)
    (hcontent : ∀ fd, u.fd? = some fd → d'.dir.content fd = d.dir.content fd)
    (hnames : ∀ name, u.tmp? = some name → ∀ fd,
      d'.dir.names.get? name = some fd → d.dir.names.get? name = some fd)
    (honly : ∀ fd, u.out? = some fd → ∀ n,
      d'.dir.names.get? n = some fd → d.dir.names.get? n = some fd) :
    FileOk env d' u := by
  have hdrawn {name : String} (hd : Drawn cfg d name) : Drawn cfg d' name := by
    obtain ⟨n, q, hname, hq⟩ := hd
    exact ⟨n, q, hname, by omega⟩
  have howned {name : String} {fd : Nat} (ho : Owned cfg d name fd)
      (htmp : u.tmp? = some name) (hout : u.out? = some fd) : Owned cfg d' name fd :=
    ⟨hdrawn ho.drawn, by have := ho.lt; omega, fun n hn => ho.only n (honly fd hout n hn),
      fun fd' hn => ho.own fd' (hnames name htmp fd' hn)⟩
  cases u with
  | named name =>
      refine ⟨hdrawn h.1, ?_⟩
      cases hn : d'.dir.names.get? name with
      | none => rfl
      | some fd => exact absurd (hnames name rfl fd hn) (by simp [h.2])
  | writing name fd | written name fd data =>
      exact ⟨howned h.1 rfl rfl, (hcontent fd rfl).trans h.2⟩
  | reading k fd =>
      refine ⟨by have := h.1; omega, ?_⟩
      rw [hcontent fd rfl]
      exact h.2
  | idle => trivial
  | renamed key data => trivial
  | unlinked key => trivial

namespace Files

variable {env : Env cfg} {d d' : Disk} {use : Nat → FileUse} {t : Nat} {u : FileUse}

/-- One thread has moved to the use `u`, and the directory to `d'`. -/
theorem update (h : Files env d use)
    (hinode : ∀ n fd, d'.dir.names.get? n = some fd → fd < d'.dir.inodes.length)
    (hchunk : ∀ k ∈ env.keys, ∀ fd, d'.dir.names.get? (cfg.disk.nameOf k) = some fd →
      env.good k (d'.dir.content fd))
    (hfresh : ∀ n q, d'.tmpSeq ≤ q → d'.dir.names.get? (tmpName cfg.pid n q) = none)
    (hother : ∀ t', t' ≠ t → FileOk env d' (use t')) (hself : FileOk env d' u)
    (hapart : ∀ t', t' ≠ t → u.Apart (use t')) :
    Files env d' (Function.update use t u) := by
  refine ⟨hinode, hchunk, hfresh, ?_, ?_⟩
  · intro t'
    by_cases htt : t' = t
    · subst htt
      simpa using hself
    · simpa [htt] using hother t' htt
  · intro t1 t2 hne
    by_cases h1 : t1 = t
    · subst h1
      simpa [Ne.symm hne] using hapart t2 (Ne.symm hne)
    · by_cases h2 : t2 = t
      · subst h2
        simpa [h1] using (hapart t1 h1).symm
      · simpa [h1, h2] using h.apart t1 t2 hne

/-- Names may disappear at any time. -/
theorem shrink (h : Files env d use) (hseq : d'.tmpSeq = d.tmpSeq)
    (hinodes : d'.dir.inodes = d.dir.inodes)
    (hnames : ∀ n fd, d'.dir.names.get? n = some fd → d.dir.names.get? n = some fd) :
    Files env d' use := by
  have hcontent (fd : Nat) : d'.dir.content fd = d.dir.content fd := by
    simp only [Dir.content, hinodes]
  refine ⟨?_, ?_, ?_, ?_, h.apart⟩
  · intro n fd hn
    rw [hinodes]
    exact h.inode n fd (hnames n fd hn)
  · intro k hk fd hn
    rw [hcontent]
    exact h.chunk k hk fd (hnames _ fd hn)
  · intro n q hq
    have hfresh := h.fresh n q (hseq ▸ hq)
    cases hn : d'.dir.names.get? (tmpName cfg.pid n q) with
    | none => rfl
    | some fd => simp [hnames _ fd hn] at hfresh
  · intro t
    exact (h.thread t).frame hseq.ge (by rw [hinodes]) (fun fd _ => hcontent fd)
      (fun name _ fd hn => hnames name fd hn) (fun fd _ n hn => hnames n fd hn)

/-- A thread may let go of what it has. -/
theorem letGo (h : Files env d use) (hu : u.Free) : Files env d (Function.update use t u) :=
  h.update h.inode h.chunk h.fresh (fun t' _ => h.thread t') (.of_free hu)
    fun _ _ => .of_free hu

/-- What lies under the name of a chunk is written by nobody. -/
theorem chunk_out (h : Files env d use) {k : ChunkKey} {fd : Nat}
    (hn : d.dir.names.get? (cfg.disk.nameOf k) = some fd) (t : Nat) :
    (use t).out? ≠ some fd := by
  intro hout
  have htmp := (h.thread t).only hout hn
  exact ((h.thread t).drawn htmp).ne_nameOf k rfl

/-- A chunk file is opened. -/
theorem openFile (h : Files env d use) {k : ChunkKey} (hk : k ∈ env.keys) {fd : Nat}
    (hn : d.dir.names.get? (cfg.disk.nameOf k) = some fd) :
    Files env d (Function.update use t (.reading k fd)) := by
  refine h.update h.inode h.chunk h.fresh (fun t' _ => h.thread t')
    ⟨h.inode _ _ hn, h.chunk k hk fd hn⟩ ?_
  intro t' _
  refine ⟨by simp [FileUse.tmp?], by simp [FileUse.out?], ?_⟩
  rintro fd' hout ⟨⟩
  exact h.chunk_out hn t' hout

/-- A temporary name is drawn. -/
theorem draw (h : Files env d use) (nanos : Nat) :
    Files env { d with tmpSeq := d.tmpSeq + 1 }
      (Function.update use t (.named (tmpName cfg.pid nanos d.tmpSeq))) := by
  refine h.update h.inode h.chunk ?_ ?_ ?_ ?_
  · intro n q hq
    have hq' : d.tmpSeq + 1 ≤ q := hq
    exact h.fresh n q (by omega)
  · intro t' _
    exact (h.thread t').frame (Nat.le_succ _) le_rfl (fun _ _ => rfl) (fun _ _ _ hn => hn)
      (fun _ _ _ hn => hn)
  · exact ⟨⟨nanos, d.tmpSeq, rfl, Nat.lt_succ_self _⟩, h.fresh nanos d.tmpSeq le_rfl⟩
  · intro t' _
    refine ⟨?_, by simp [FileUse.out?], by simp [FileUse.fd?]⟩
    rintro name ⟨⟩ htmp
    obtain ⟨n, q, heq, hlt⟩ := (h.thread t').drawn htmp
    have := tmpName_inj heq
    omega

theorem content_create {dir : Dir} {name : String} (hn : dir.names.get? name = none) {fd : Nat}
    (hlt : fd < dir.inodes.length) : (dir.create name).2.content fd = dir.content fd := by
  simp [Dir.create, hn, Dir.content, List.getD_eq_getElem?_getD, List.getElem?_append_left hlt]

/-- The file of a drawn name is created. -/
theorem create (h : Files env d use) {name : String} (hu : use t = .named name) :
    Files env { d with dir := (d.dir.create name).2 }
      (Function.update use t (.writing name (d.dir.create name).1)) := by
  obtain ⟨hdrawn, hnone⟩ : FileOk env d (.named name) := hu ▸ h.thread t
  have hnames (n : String) : (d.dir.create name).2.names.get? n =
      if n = name then some d.dir.inodes.length else d.dir.names.get? n := by
    simp [Dir.create, hnone, FinMap.get?_insert]
  have hlen : (d.dir.create name).2.inodes.length = d.dir.inodes.length + 1 := by
    simp [Dir.create, hnone]
  have hfd : (d.dir.create name).1 = d.dir.inodes.length := by simp [Dir.create, hnone]
  have hother (t' : Nat) (htt : t' ≠ t) :
      (use t').tmp? ≠ some name ∧ (use t').fd? ≠ some d.dir.inodes.length := by
    constructor
    · intro htmp
      exact (h.apart t t' (Ne.symm htt)).tmp name (by rw [hu]; rfl) htmp
    · intro hfd'
      exact absurd ((h.thread t').fd_lt hfd') (lt_irrefl _)
  refine h.update ?_ ?_ ?_ ?_ ?_ ?_
  · intro n fd hn
    rw [hnames] at hn
    rw [hlen]
    split at hn
    · cases hn
      omega
    · have := h.inode n fd hn
      omega
  · intro k hk fd hn
    rw [hnames, if_neg (Ne.symm (hdrawn.ne_nameOf k))] at hn
    rw [content_create hnone (h.inode _ _ hn)]
    exact h.chunk k hk fd hn
  · intro n q hq
    rw [hnames, if_neg ?_]
    · exact h.fresh n q hq
    · rintro rfl
      obtain ⟨n', q', heq, hlt⟩ := hdrawn
      have := tmpName_inj heq
      have hq' : d.tmpSeq ≤ q := hq
      omega
  · intro t' htt
    obtain ⟨htmp, hfd'⟩ := hother t' htt
    refine (h.thread t').frame le_rfl (by simp only [hlen]; omega) ?_ ?_ ?_
    · intro fd huse
      exact content_create hnone ((h.thread t').fd_lt huse)
    · intro n huse fd hn
      rw [hnames, if_neg (by rintro rfl; exact htmp huse)] at hn
      exact hn
    · intro fd huse n hn
      rw [hnames] at hn
      split at hn
      · cases hn
        exact absurd (FileUse.fd?_of_out? huse) hfd'
      · exact hn
  · rw [hfd]
    refine ⟨⟨hdrawn, by simp only [hlen]; omega, ?_, ?_⟩, ?_⟩
    · intro n hn
      rw [hnames] at hn
      split at hn
      · assumption
      · exact absurd (h.inode _ _ hn) (lt_irrefl _)
    · intro fd' hn
      rw [hnames, if_pos rfl] at hn
      exact (Option.some.inj hn).symm
    · simp [Dir.create, hnone, Dir.content]
  · intro t' htt
    obtain ⟨htmp, hfd'⟩ := hother t' htt
    rw [hfd]
    refine ⟨?_, ?_, ?_⟩
    · rintro n ⟨⟩
      exact htmp
    · rintro fd ⟨⟩
      exact hfd'
    · rintro fd hout ⟨⟩
      exact hfd' (FileUse.fd?_of_out? hout)

theorem content_append {dir : Dir} {fd fd' : Nat} {part : Bytes} (hlt : fd < dir.inodes.length) :
    (dir.append fd part).content fd' =
      if fd' = fd then dir.content fd ++ part else dir.content fd' := by
  by_cases heq : fd' = fd
  · subst heq
    simp [Dir.append, Dir.content, List.getD_eq_getElem?_getD, List.getElem?_set_self hlt]
  · simp [Dir.append, Dir.content, List.getD_eq_getElem?_getD,
      List.getElem?_set_ne (Ne.symm heq), heq]

/-- Data is written to a new file. -/
theorem append (h : Files env d use) {name : String} {fd : Nat} (hu : use t = .writing name fd)
    (data : Bytes) :
    Files env { d with dir := d.dir.append fd data }
      (Function.update use t (.written name fd data)) := by
  obtain ⟨howned, hblank⟩ : FileOk env d (.writing name fd) := hu ▸ h.thread t
  have hout : (use t).out? = some fd := by rw [hu]; rfl
  have hkeep {fd' : Nat} (hne : fd' ≠ fd) :
      (d.dir.append fd data).content fd' = d.dir.content fd' := by
    rw [content_append howned.lt, if_neg hne]
  have hlen : (d.dir.append fd data).inodes.length = d.dir.inodes.length := by
    simp [Dir.append]
  refine h.update ?_ ?_ h.fresh ?_ ?_ ?_
  · intro n fd' hn
    rw [hlen]
    exact h.inode n fd' hn
  · intro k hk fd' hn
    rw [hkeep]
    · exact h.chunk k hk fd' hn
    · rintro rfl
      exact h.chunk_out hn t hout
  · intro t' htt
    refine (h.thread t').frame le_rfl hlen.ge ?_ (fun _ _ _ hn => hn) (fun _ _ _ hn => hn)
    intro fd' huse
    apply hkeep
    rintro rfl
    exact (h.apart t t' (Ne.symm htt)).left _ hout huse
  · refine ⟨⟨howned.drawn, by rw [hlen]; exact howned.lt, howned.only, howned.own⟩, ?_⟩
    rw [content_append howned.lt, if_pos rfl, hblank, List.nil_append]
  · intro t' htt
    have hapart := h.apart t t' (Ne.symm htt)
    rw [hu] at hapart
    exact ⟨hapart.tmp, hapart.left, hapart.right⟩

/-- A complete file takes the name of its chunk. -/
theorem rename (h : Files env d use) {name : String} {fd : Nat} {key : ChunkKey} {data : Bytes}
    (hu : use t = .written name fd data) (hkey : key ∈ env.keys) (hgood : env.good key data)
    {dir : Dir} (hr : d.dir.rename name (cfg.disk.nameOf key) = some dir) :
    Files env { d with dir := dir } (Function.update use t (.renamed key data)) := by
  obtain ⟨howned, hfull⟩ : FileOk env d (.written name fd data) := hu ▸ h.thread t
  have htmp : (use t).tmp? = some name := by rw [hu]; rfl
  have hout : (use t).out? = some fd := by rw [hu]; rfl
  obtain ⟨fd', hfd', rfl⟩ := Option.map_eq_some_iff.mp hr
  obtain rfl := howned.own fd' hfd'
  have hnames (n : String) :
      ((d.dir.names.erase name).insert (cfg.disk.nameOf key) fd').get? n =
        if n = cfg.disk.nameOf key then some fd'
        else if n = name then none else d.dir.names.get? n := by
    rw [FinMap.get?_insert, FinMap.get?_erase]
  refine h.update ?_ ?_ ?_ ?_ trivial fun _ _ => .of_free ⟨rfl, rfl⟩
  · intro n x hn
    simp only [hnames] at hn
    split at hn
    · cases hn
      exact howned.lt
    · split at hn
      · cases hn
      · exact h.inode n x hn
  · intro k hk x hn
    simp only [hnames] at hn
    split at hn
    · rename_i heq
      cases hn
      change env.good k (d.dir.content fd')
      rw [hfull]
      exact env.shared k hk key hkey heq data hgood
    · split at hn
      · cases hn
      · exact h.chunk k hk x hn
  · intro n q hq
    simp only [hnames]
    rw [if_neg (tmpName_ne_nameOf cfg n q key)]
    split
    · rfl
    · exact h.fresh n q hq
  · intro t' htt
    have hapart := h.apart t t' (Ne.symm htt)
    refine (h.thread t').frame le_rfl le_rfl (fun _ _ => rfl) ?_ ?_
    · intro n huse x hn
      simp only [hnames] at hn
      rw [if_neg (((h.thread t').drawn huse).ne_nameOf key)] at hn
      split at hn
      · cases hn
      · exact hn
    · intro x huse n hn
      simp only [hnames] at hn
      split at hn
      · cases hn
        exact absurd (FileUse.fd?_of_out? huse) (hapart.left _ hout)
      · split at hn
        · cases hn
        · exact hn

theorem unlink_names {dir : Dir} {stuck : List String} {name n : String} {fd : Nat}
    (hn : (dir.unlink stuck name).2.names.get? n = some fd) : dir.names.get? n = some fd := by
  unfold Dir.unlink at hn
  split at hn
  · rw [FinMap.get?_erase] at hn
    split at hn
    · cases hn
    · exact hn
  · exact hn

theorem unlink_inodes (dir : Dir) (stuck : List String) (name : String) :
    (dir.unlink stuck name).2.inodes = dir.inodes := by
  unfold Dir.unlink
  split <;> rfl

/-- A directory that has only lost names. -/
structure Fewer (dir dir' : Dir) : Prop where
  inodes : dir'.inodes = dir.inodes
  names : ∀ n fd, dir'.names.get? n = some fd → dir.names.get? n = some fd

theorem Fewer.unlink (dir : Dir) (stuck : List String) (name : String) :
    Fewer dir (dir.unlink stuck name).2 :=
  ⟨unlink_inodes dir stuck name, fun _ _ hn => unlink_names hn⟩

theorem Fewer.trans {a b c : Dir} (h : Fewer a b) (h' : Fewer b c) : Fewer a c :=
  ⟨h'.inodes.trans h.inodes, fun n fd hn => h.names n fd (h'.names n fd hn)⟩

theorem Fewer.unlinkAll (dir : Dir) (stuck : List String) (names : List String) :
    Fewer dir (dir.unlinkAll stuck names) := by
  induction names generalizing dir with
  | nil => exact ⟨rfl, fun _ _ hn => hn⟩
  | cons name names ih => exact (Fewer.unlink dir stuck name).trans (ih _)

theorem Fewer.clearFiles (cfg : DiskConfig) (entries : FinMap ChunkKey Entry)
    (stuck : List String) (dir : Dir) (files bytes : Nat) (keys : List ChunkKey) :
    Fewer dir (Disk.clearFiles cfg entries stuck dir files bytes keys).2 := by
  induction keys generalizing dir files bytes with
  | nil => exact ⟨rfl, fun _ _ hn => hn⟩
  | cons k keys ih =>
      have hunlink := Fewer.unlink dir stuck (cfg.nameOf k)
      simp only [Disk.clearFiles]
      split
      · exact ih dir files bytes
      · split
        · rename_i heq
          rw [heq] at hunlink
          exact hunlink.trans (ih _ _ _)
        · rename_i heq
          rw [heq] at hunlink
          exact hunlink.trans (ih _ _ _)

theorem fewer (h : Files env d use) (hseq : d'.tmpSeq = d.tmpSeq) (hdir : Fewer d.dir d'.dir) :
    Files env d' use :=
  h.shrink hseq hdir.inodes hdir.names

end Files

/-- The operation did not fail. -/
def diskSucceeds : (o : DiskOp) → o.Resp → Prop
  | .create _, r => r ≠ none
  | .writeAll _ _, r | .syncData _, r | .rename _ _, r => r = true
  | _, _ => True

theorem FileUse.free_idle : FileUse.idle.Free := ⟨rfl, rfl⟩

section Exec

variable {env : Env cfg} {d : Disk} {use : Nat → FileUse} {t : Nat} {l : Loc}

/-- What the discipline says of one operation of thread `t`. -/
def Files.Executed (env : Env cfg) (d : Disk) (use : Nat → FileUse) (t : Nat) (l : Loc)
    (c : DiskChoice) (o : DiskOp) : Prop :=
  diskAllows env l o (d.exec cfg.disk t c o).1 ∧
    Files env (d.exec cfg.disk t c o).2
      (Function.update use t (diskNext l o (d.exec cfg.disk t c o).1).file)

theorem Files.exec_create (h : Files env d use) (hl : use t = l.file) (c : DiskChoice)
    {name : String} (hpre : diskPre env l (.create name))
    (hio : env.ioErr ∨ (d.create name c).1 ≠ none) : Executed env d use t l c (.create name) := by
  change ((d.create name c).1 = none → env.ioErr) ∧ Files env (d.create name c).2
    (Function.update use t (diskNext l (.create name) (d.create name c).1).file)
  cases hc : c.ioError with
  | true =>
      simp only [Disk.create, hc, if_true] at hio ⊢
      exact ⟨fun _ => hio.resolve_right (by simp), h.letGo FileUse.free_idle⟩
  | false =>
      simp only [Disk.create, hc, Bool.false_eq_true, if_false]
      exact ⟨by simp, h.create (hl.trans hpre)⟩

/-- A write that fails leaves a part of the data in the file, which is let go. -/
theorem Files.exec_writeAll (h : Files env d use) (hl : use t = l.file) (c : DiskChoice)
    {fd : Nat} {data : Bytes} (hpre : diskPre env l (.writeAll fd data))
    (hio : env.ioErr ∨ (d.writeAll fd data c).1 = true) :
    Executed env d use t l c (.writeAll fd data) := by
  obtain ⟨name, hname⟩ := hpre
  have happend (part : Bytes) := h.append (hl.trans hname) part
  change ((d.writeAll fd data c).1 = false → env.ioErr) ∧ Files env (d.writeAll fd data c).2
    (Function.update use t (diskNext l (.writeAll fd data) (d.writeAll fd data c).1).file)
  cases hc : c.ioError with
  | true =>
      simp only [Disk.writeAll, hc, if_true] at hio ⊢
      refine ⟨fun _ => hio.resolve_right Bool.false_ne_true, ?_⟩
      have hgo := (happend (data.take c.written)).letGo (t := t) FileUse.free_idle
      simpa [diskNext, hname] using hgo
  | false =>
      simp only [Disk.writeAll, hc, Bool.false_eq_true, if_false]
      refine ⟨by simp, ?_⟩
      simpa [diskNext, hname] using happend data

theorem Files.exec_rename (h : Files env d use) (hl : use t = l.file) (c : DiskChoice)
    {tmp : String} {key : ChunkKey} (hpre : diskPre env l (.rename tmp key))
    (hio : env.ioErr ∨ (d.rename cfg.disk tmp key c).1 = true) :
    Executed env d use t l c (.rename tmp key) := by
  obtain ⟨fd, data, -, hfile, hkey, hgood⟩ := hpre
  change ((d.rename cfg.disk tmp key c).1 = false → env.ioErr) ∧
    Files env (d.rename cfg.disk tmp key c).2
      (Function.update use t (diskNext l (.rename tmp key)
        (d.rename cfg.disk tmp key c).1).file)
  have hgo : Files env d (Function.update use t (diskNext l (.rename tmp key) false).file) := by
    simpa [diskNext, hfile] using h.letGo (t := t) FileUse.free_idle
  unfold Disk.rename at hio ⊢
  cases hc : c.ioError with
  | true =>
      simp only [hc, if_true] at hio ⊢
      exact ⟨fun _ => hio.resolve_right Bool.false_ne_true, hgo⟩
  | false =>
      simp only [hc, Bool.false_eq_true, if_false] at hio ⊢
      cases hr : d.dir.rename tmp (cfg.disk.nameOf key) with
      | none =>
          simp only [hr] at hio ⊢
          exact ⟨fun _ => hio.resolve_right Bool.false_ne_true, hgo⟩
      | some dir =>
          refine ⟨by simp, ?_⟩
          simpa [diskNext, hfile] using h.rename (hl.trans hfile) hkey hgood hr

/-- One operation of a thread that keeps to the discipline. -/
theorem Files.exec (h : Files env d use) (hl : use t = l.file) (c : DiskChoice) (o : DiskOp)
    (hpre : diskPre env l o)
    (hio : env.ioErr ∨ diskSucceeds o (d.exec cfg.disk t c o).1) :
    Executed env d use t l c o := by
  have hkeep : Files env d (Function.update use t l.file) := by
    rw [← hl, Function.update_eq_self]
    exact h
  have hok : FileOk env d l.file := hl ▸ h.thread t
  cases o with
  | tmpName => exact ⟨trivial, h.draw c.nanos⟩
  | create name => exact h.exec_create hl c hpre hio
  | writeAll fd data => exact h.exec_writeAll hl c hpre hio
  | syncData fd =>
      change env.ioErr ∨ (!c.ioError) = true at hio
      change ((!c.ioError) = false → env.ioErr) ∧ Files env d
        (Function.update use t (diskNext l (.syncData fd) (!c.ioError)).file)
      cases hc : c.ioError with
      | true =>
          rw [hc] at hio
          exact ⟨fun _ => hio.resolve_right Bool.false_ne_true, h.letGo FileUse.free_idle⟩
      | false => exact ⟨by simp, hkeep⟩
  | rename tmp key => exact h.exec_rename hl c hpre hio
  | openFile key =>
      refine ⟨trivial, ?_⟩
      change Files env d (Function.update use t
        (diskNext l (.openFile key) (d.openFile cfg.disk key c)).file)
      cases hfd : d.openFile cfg.disk key c with
      | none => exact hkeep
      | some fd =>
          unfold Disk.openFile at hfd
          split at hfd
          · cases hfd
          · exact h.openFile hpre.2 hfd
  | readToEnd fd =>
      refine ⟨?_, h.letGo FileUse.free_idle⟩
      intro key hkey data hdata
      rw [hkey] at hok
      change d.readToEnd fd c = some data at hdata
      unfold Disk.readToEnd at hdata
      split at hdata
      · cases hdata
      · cases hdata
        exact hok.2
  | readExactAt fd offset len =>
      refine ⟨?_, h.letGo FileUse.free_idle⟩
      intro key hkey b hb
      rw [hkey] at hok
      change d.readExactAt fd offset len c = some b at hb
      unfold Disk.readExactAt at hb
      split at hb
      · cases hb
      · split at hb
        · rename_i hle
          cases hb
          exact ⟨_, hok.2, hle, rfl⟩
        · cases hb
  | insertSection key size =>
      have hfew : Files env (d.insertSection cfg.disk t key size c.stuck) use :=
        h.fewer rfl (.unlinkAll _ _ _)
      exact ⟨trivial, hfew.letGo FileUse.free_idle⟩
  | removeFile key =>
      have hfew : Files env { d with dir := (d.dir.unlink c.stuck (cfg.disk.nameOf key)).2 } use :=
        h.fewer rfl (.unlink _ _ _)
      exact ⟨trivial, hfew.letGo ⟨rfl, rfl⟩⟩
  | removeSection key =>
      have hfew : Files env (d.removeSection key) use := by
        unfold Disk.removeSection
        split
        · exact h
        · exact h.fewer rfl ⟨rfl, fun _ _ hn => hn⟩
      exact ⟨trivial, hfew.letGo FileUse.free_idle⟩
  | unlink name => exact ⟨trivial, hkeep.fewer rfl (.unlink _ _ _)⟩
  | clearSection => exact ⟨trivial, hkeep.fewer rfl (.clearFiles _ _ _ _ _ _ _)⟩
  | touchLru key =>
      refine ⟨trivial, ?_⟩
      change Files env (d.touchLru key).2 (Function.update use t l.file)
      unfold Disk.touchLru
      split
      · exact hkeep.fewer rfl ⟨rfl, fun _ _ hn => hn⟩
      · exact hkeep.fewer rfl ⟨rfl, fun _ _ hn => hn⟩
  | _ => exact ⟨trivial, hkeep.fewer rfl ⟨rfl, fun _ _ hn => hn⟩⟩

end Exec

end BlobCache.Node
