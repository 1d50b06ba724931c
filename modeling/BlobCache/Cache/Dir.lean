import BlobCache.Cache.Disk

/-!
Directories in which every name has a file of its own. The operations of the
disk cache make no links, so the directory stays like this, and each of them
changes the files that it names and no other.
-/

namespace BlobCache.Cache

namespace Dir

/-- Names refer to inodes that exist, different names to different ones. -/
structure Sound (d : Dir) : Prop where
  inode : ∀ n fd, d.names.get? n = some fd → fd < d.inodes.length
  apart : ∀ n n' fd, d.names.get? n = some fd → d.names.get? n' = some fd → n = n'

theorem file_eq_none {d : Dir} {n : String} : d.file n = none ↔ d.names.get? n = none := by
  simp [file]

theorem content_of_file {d : Dir} {n : String} {fd : Nat} (h : d.names.get? n = some fd) :
    d.file n = some (d.content fd) := by
  simp [file, h]

theorem content_set {d : Dir} {fd : Nat} (hfd : fd < d.inodes.length) (data : Bytes) (i : Nat) :
    ({ d with inodes := d.inodes.set fd data } : Dir).content i =
      if i = fd then data else d.content i := by
  by_cases hi : i = fd
  · subst hi
    simp [content, List.getElem?_set_self hfd]
  · simp [content, List.getElem?_set_ne (Ne.symm hi), hi]

variable {d : Dir}

theorem Sound.empty : Sound Dir.empty := by
  constructor <;> simp [Dir.empty]

/-- Writing to the inode of a name changes the file of that name. -/
theorem Sound.file_set (h : d.Sound) {name : String} {fd : Nat}
    (hname : d.names.get? name = some fd) (data : Bytes) (n : String) :
    ({ d with inodes := d.inodes.set fd data } : Dir).file n =
      if n = name then some data else d.file n := by
  have hlt := h.inode name fd hname
  cases hn : d.names.get? n with
  | none =>
      have hne : n ≠ name := by
        rintro rfl
        rw [hname] at hn
        cases hn
      simp [file, hn, hne]
  | some i =>
      have hiff : i = fd ↔ n = name := by
        constructor
        · rintro rfl
          exact h.apart n name i hn hname
        · rintro rfl
          rw [hname] at hn
          exact (Option.some.inj hn).symm
      have hset := content_set hlt data i
      simp only [hiff] at hset
      simp only [file, hn, Option.map_some, hset]
      split <;> rfl

theorem Sound.set (h : d.Sound) (fd : Nat) (data : Bytes) :
    Sound { d with inodes := d.inodes.set fd data } :=
  ⟨fun n i hn => by simpa using h.inode n i hn, h.apart⟩

theorem create_names (d : Dir) (name : String) :
    (d.create name).2.names.get? name = some (d.create name).1 := by
  unfold create
  split
  · assumption
  · exact FinMap.get?_insert_self _ _ _

theorem Sound.file_create (h : d.Sound) (name n : String) :
    (d.create name).2.file n = if n = name then some [] else d.file n := by
  cases hname : d.names.get? name with
  | none => exact Dir.file_create hname (h.inode n)
  | some fd =>
      simp only [create, hname]
      exact h.file_set hname [] n

theorem Sound.create (h : d.Sound) (name : String) : Sound (d.create name).2 := by
  cases hname : d.names.get? name with
  | some fd =>
      simp only [Dir.create, hname]
      exact h.set fd []
  | none =>
      simp only [Dir.create, hname]
      constructor
      · intro n fd hn
        simp only [FinMap.get?_insert] at hn
        rw [List.length_append, List.length_singleton]
        split at hn
        · cases hn
          omega
        · have := h.inode n fd hn
          omega
      · intro n n' fd hn hn'
        simp only [FinMap.get?_insert] at hn hn'
        -- the new inode is none of the old ones
        have hnew {m : String} (hm : d.names.get? m = some d.inodes.length) : False :=
          absurd (h.inode m _ hm) (lt_irrefl _)
        by_cases hnn : n = name
        · rw [if_pos hnn] at hn
          cases hn
          by_cases hnn' : n' = name
          · rw [hnn, hnn']
          · rw [if_neg hnn'] at hn'
            exact (hnew hn').elim
        · rw [if_neg hnn] at hn
          by_cases hnn' : n' = name
          · rw [if_pos hnn'] at hn'
            cases hn'
            exact (hnew hn).elim
          · rw [if_neg hnn'] at hn'
            exact h.apart n n' fd hn hn'

theorem Sound.append (h : d.Sound) (fd : Nat) (data : Bytes) : Sound (d.append fd data) :=
  h.set fd _

theorem Sound.file_append (h : d.Sound) {name : String} {fd : Nat}
    (hname : d.names.get? name = some fd) (data : Bytes) (n : String) :
    (d.append fd data).file n = if n = name then some (d.content fd ++ data) else d.file n :=
  h.file_set hname _ n

/-- A new file with its content. -/
theorem Sound.file_create_append (h : d.Sound) (name : String) (data : Bytes) (n : String) :
    ((d.create name).2.append (d.create name).1 data).file n =
      if n = name then some data else d.file n := by
  have hempty : (d.create name).2.content (d.create name).1 = [] := by
    have hfile := h.file_create name name
    rw [if_pos rfl, content_of_file (create_names d name)] at hfile
    exact Option.some.inj hfile
  rw [(h.create name).file_append (create_names d name), hempty, h.file_create, List.nil_append]
  split <;> rfl

theorem exists_rename {source : String} {fd : Nat} (h : d.names.get? source = some fd)
    (target : String) : ∃ d', d.rename source target = some d' := by
  simp [rename, h]

theorem Sound.rename (h : d.Sound) {source target : String} {d' : Dir}
    (hr : d.rename source target = some d') : Sound d' := by
  obtain ⟨fd, hfd, rfl⟩ := Option.map_eq_some_iff.mp hr
  have hold {n : String} {i : Nat}
      (hn : ((d.names.erase source).insert target fd).get? n = some i) :
      (n = target ∧ i = fd) ∨ n ≠ source ∧ d.names.get? n = some i := by
    simp only [FinMap.get?_insert, FinMap.get?_erase] at hn
    split at hn
    · cases hn
      exact .inl ⟨by assumption, rfl⟩
    · split at hn
      · cases hn
      · exact .inr ⟨by assumption, hn⟩
  constructor
  · intro n i hn
    rcases hold hn with ⟨-, rfl⟩ | ⟨-, hn⟩
    · exact h.inode source i hfd
    · exact h.inode n i hn
  · intro n n' i hn hn'
    rcases hold hn with ⟨htarget, rfl⟩ | ⟨hne, hkept⟩
    · rcases hold hn' with ⟨htarget', -⟩ | ⟨hne', hkept'⟩
      · rw [htarget, htarget']
      · exact absurd (h.apart n' source i hkept' hfd) hne'
    · rcases hold hn' with ⟨-, rfl⟩ | ⟨-, hkept'⟩
      · exact absurd (h.apart n source i hkept hfd) hne
      · exact h.apart n n' i hkept hkept'

theorem Sound.erase (h : d.Sound) (name : String) :
    Sound { d with names := d.names.erase name } := by
  have hold {n : String} {i : Nat} (hn : (d.names.erase name).get? n = some i) :
      d.names.get? n = some i := by
    rw [FinMap.get?_erase] at hn
    split at hn
    · cases hn
    · exact hn
  constructor
  · intro n i hn
    exact h.inode n i (hold hn)
  · intro n n' i hn hn'
    exact h.apart n n' i (hold hn) (hold hn')

theorem Sound.unlink (h : d.Sound) (stuck : List String) (name : String) :
    Sound (d.unlink stuck name).2 := by
  unfold Dir.unlink
  split
  · exact h.erase name
  · exact h

theorem Sound.unlinkAll (h : d.Sound) (stuck names : List String) :
    Sound (d.unlinkAll stuck names) := by
  induction names generalizing d with
  | nil => exact h
  | cons name names ih => exact ih (h.unlink stuck name)

end Dir

namespace Disk

variable {cfg : DiskConfig} {d : Disk}

theorem rename_of_dir {tmp : String} {key : ChunkKey} {c : DiskChoice} (hc : c.ioError = false)
    {dir : Dir} (h : d.dir.rename tmp (cfg.nameOf key) = some dir) :
    d.rename cfg tmp key c = (true, { d with dir := dir }) := by
  simp [rename, hc, h]

theorem sound_clearFiles (entries : FinMap ChunkKey Entry) (stuck : List String) {dir : Dir}
    (h : dir.Sound) (files bytes : Nat) (keys : List ChunkKey) :
    (clearFiles cfg entries stuck dir files bytes keys).2.Sound := by
  induction keys generalizing dir files bytes with
  | nil => exact h
  | cons k keys ih =>
      have hnext := h.unlink stuck (cfg.nameOf k)
      simp only [clearFiles]
      split
      · exact ih h _ _
      · split
        · rename_i hunlink
          rw [hunlink] at hnext
          exact ih hnext _ _
        · rename_i hunlink
          rw [hunlink] at hnext
          exact ih hnext _ _

/-- Whatever the environment does, no operation makes two names share a file. -/
theorem sound_exec (h : d.dir.Sound) (t : Nat) (c : DiskChoice) (o : DiskOp) :
    (d.exec cfg t c o).2.dir.Sound := by
  cases o with
  | insertSection key size => exact h.unlinkAll _ _
  | clearSection => exact sound_clearFiles _ _ h _ _ _
  | removeFile key => exact h.unlink _ _
  | unlink name => exact h.unlink _ _
  | touchLru key =>
      simp only [exec, touchLru]
      split
      · exact h
      · exact h
  | removeSection key =>
      simp only [exec, removeSection]
      split
      · exact h
      · exact h
  | create name =>
      simp only [exec, create]
      split
      · exact h
      · exact h.create name
  | writeAll fd data =>
      simp only [exec, writeAll]
      split
      · exact h.append fd _
      · exact h.append fd _
  | rename tmp key =>
      simp only [exec, rename]
      split
      · exact h
      · split
        · exact h
        · rename_i hr
          exact h.rename hr
  | _ => exact h

end Disk

end BlobCache.Cache
