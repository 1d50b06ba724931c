import BlobCache.Cluster.Precedence
import BlobCache.Config

/-!
What `cluster_hash` says about a configuration. Apart from collisions of the hash
it tells configurations apart that lay chunks out differently or mean different
containers by a name, as long as no field holds a NUL. It should also not depend
on the order of the mounts, which are sorted by name before they are hashed; that
leaves the order of mounts of one name, and `validate` lets those pass.
-/

namespace BlobCache.Conf.Config

/-! ## Reading the hashed bytes back -/

/-- No field of the mount has a NUL byte. -/
def NoNul (m : MountConfig) : Prop :=
  ∀ field ∈ [m.name, m.account, m.container, m.pathPrefix], 0 ∉ utf8 field

theorem mountRecord_append (m : MountConfig) (s : Bytes) :
    mountRecord m ++ s = utf8 m.name ++ 0 :: (utf8 m.account ++ 0 ::
      (utf8 m.container ++ 0 :: (utf8 m.pathPrefix ++ 0 :: s))) := by
  simp [mountRecord]

theorem mountRecord_append_inj {m m' : MountConfig} (hm : NoNul m) (hm' : NoNul m')
    {s t : Bytes} (h : mountRecord m ++ s = mountRecord m' ++ t) : m = m' ∧ s = t := by
  rw [mountRecord_append, mountRecord_append] at h
  obtain ⟨hname, h⟩ := append_sep_inj (hm m.name (by simp)) (hm' m'.name (by simp)) h
  obtain ⟨haccount, h⟩ := append_sep_inj (hm m.account (by simp)) (hm' m'.account (by simp)) h
  obtain ⟨hcontainer, h⟩ :=
    append_sep_inj (hm m.container (by simp)) (hm' m'.container (by simp)) h
  obtain ⟨hpath, hrest⟩ :=
    append_sep_inj (hm m.pathPrefix (by simp)) (hm' m'.pathPrefix (by simp)) h
  cases m
  cases m'
  rw [MountConfig.mk.injEq]
  exact ⟨⟨utf8_inj hname, utf8_inj haccount, utf8_inj hcontainer, utf8_inj hpath⟩, hrest⟩

theorem mountRecord_ne_nil (m : MountConfig) : mountRecord m ≠ [] := by
  simp [mountRecord]

theorem flatMap_mountRecord_inj {l l' : List MountConfig} (hl : ∀ m ∈ l, NoNul m)
    (hl' : ∀ m ∈ l', NoNul m) (h : l.flatMap mountRecord = l'.flatMap mountRecord) : l = l' := by
  induction l generalizing l' with
  | nil =>
      cases l' with
      | nil => rfl
      | cons m' l' =>
          rw [List.flatMap_nil, List.flatMap_cons] at h
          exact absurd (List.append_eq_nil_iff.mp h.symm).1 (mountRecord_ne_nil m')
  | cons m l ih =>
      cases l' with
      | nil =>
          rw [List.flatMap_nil, List.flatMap_cons] at h
          exact absurd (List.append_eq_nil_iff.mp h).1 (mountRecord_ne_nil m)
      | cons m' l' =>
          rw [List.flatMap_cons, List.flatMap_cons] at h
          obtain ⟨rfl, hrest⟩ := mountRecord_append_inj (hl m List.mem_cons_self)
            (hl' m' List.mem_cons_self) h
          rw [ih (fun x hx => hl x (List.mem_cons_of_mem m hx))
            (fun x hx => hl' x (List.mem_cons_of_mem m hx)) hrest]

/-! ## What a name denotes -/

/-- Of the mounts of a name the last one is in the table. -/
theorem foldl_insert_get? (l : List MountConfig) (t : FinMap String MountConfig) (name : String) :
    (l.foldl (fun t m => t.insert m.name m) t).get? name =
      ((l.filter fun m => m.name = name).getLast?).or (t.get? name) := by
  induction l generalizing t with
  | nil => rfl
  | cons m l ih =>
      rw [List.foldl_cons, ih, FinMap.get?_insert]
      by_cases hname : m.name = name
      · rw [List.filter_cons_of_pos (by simpa using hname), if_pos hname.symm,
          List.getLast?_cons]
        cases (l.filter fun m => m.name = name).getLast? with
        | none => rfl
        | some last => rfl
      · rw [List.filter_cons_of_neg (by simpa using hname), if_neg fun heq => hname heq.symm]

theorem mountTable_get? (c : Config) (name : String) :
    c.mountTable.get? name = (c.mounts.filter fun m => m.name = name).getLast? := by
  rw [mountTable, foldl_insert_get?]
  simp

/-! ## Telling configurations apart -/

/-- Two nodes lay chunks out alike and mean the same by every mount name. -/
structure Agrees (c c' : Config) : Prop where
  chunkSize : c.chunkSize = c'.chunkSize
  transportKind : c.transportKind = c'.transportKind
  mounts : c.mounts.Perm c'.mounts
  denotes : ∀ name, c.mountTable.get? name = c'.mountTable.get? name

theorem kind_of_validate {debugText : String → String} {c : Config}
    (h : c.validate debugText = .ok ()) : c.transportKind = "tcp" ∨ c.transportKind = "rdma" := by
  by_contra hkind
  have hnot : c.transportKind ∉ ["tcp", "rdma"] := by simpa using hkind
  simp only [validate, if_neg hnot] at h
  repeat' split at h
  all_goals cases h

theorem agrees_of_preimage {debugText : String → String} {c c' : Config}
    (hc : c.validate debugText = .ok ()) (hc' : c'.validate debugText = .ok ())
    (hsize : c.chunkSize < 2 ^ 64) (hsize' : c'.chunkSize < 2 ^ 64)
    (hnul : ∀ m ∈ c.mounts, NoNul m) (hnul' : ∀ m ∈ c'.mounts, NoNul m)
    (h : c.preimage = c'.preimage) : c.Agrees c' := by
  unfold preimage at h
  simp only [List.append_assoc] at h
  obtain ⟨hchunk, h⟩ := List.append_inj h (by simp)
  have hkindNul {k : String} (hk : k = "tcp" ∨ k = "rdma") : 0 ∉ utf8 k := by
    rcases hk with rfl | rfl
    · decide
    · decide
  obtain ⟨hkind, h⟩ := append_sep_inj (hkindNul (kind_of_validate hc))
    (hkindNul (kind_of_validate hc')) h
  have hsorted : Sorted.sortBy MountConfig.name c.mounts =
      Sorted.sortBy MountConfig.name c'.mounts := by
    apply flatMap_mountRecord_inj _ _ h
    · intro m hm
      exact hnul m ((Sorted.mem_sortBy _).mp hm)
    · intro m hm
      exact hnul' m ((Sorted.mem_sortBy _).mp hm)
  constructor
  · rw [← ofLeBytes_leBytes 8 hsize, ← ofLeBytes_leBytes 8 hsize', hchunk]
  · exact utf8_inj hkind
  · exact (Sorted.sortBy_perm MountConfig.name c.mounts).symm.trans
      (hsorted ▸ Sorted.sortBy_perm MountConfig.name c'.mounts)
  · intro name
    rw [mountTable_get?, mountTable_get?, ← Sorted.filter_sortBy, hsorted, Sorted.filter_sortBy]

/-- Configurations with the same hashed bytes agree. Apart from a collision, so do
those of a node and of a peer whose record it takes over in a merge. -/
theorem clusterHash_separates {debugText : String → String} {c c' : Config}
    (hc : c.validate debugText = .ok ()) (hc' : c'.validate debugText = .ok ())
    (hsize : c.chunkSize < 2 ^ 64) (hsize' : c'.chunkSize < 2 ^ 64)
    (hnul : ∀ m ∈ c.mounts, NoNul m) (hnul' : ∀ m ∈ c'.mounts, NoNul m) :
    (c.preimage = c'.preimage → c.Agrees c') ∧
      ∀ sha256 : Bytes → Digest,
        (sha256 c.preimage = sha256 c'.preimage → c.preimage = c'.preimage) →
        ∀ (m : Cluster.Membership) (now : Nat) (incoming : List Cluster.NodeInfo) (id : String)
          (r : Cluster.NodeInfo), id ≠ m.meId →
          m.meTemplate.clusterHash = c.clusterHashHex sha256 →
          r.clusterHash = c'.clusterHashHex sha256 → m.members.get? id ≠ some r →
          (m.merge now incoming).members.get? id = some r → c.Agrees c' := by
  have hagrees := agrees_of_preimage hc hc' hsize hsize' hnul hnul'
  refine ⟨hagrees, ?_⟩
  intro sha256 hcollision m now incoming id r hid hme hr hnew hmerged
  rcases Cluster.Membership.merge_record hmerged with hold | ⟨-, -, hhash⟩ | ⟨hself, -⟩
  · exact absurd hold hnew
  · rw [hme, hr] at hhash
    have hdigest : c'.clusterHash sha256 = c.clusterHash sha256 :=
      Vector.toList_inj.mp (hex_inj hhash)
    exact hagrees (hcollision hdigest.symm)
  · exact absurd hself hid

/-- The format `{:?}` of a string without special characters. -/
def quoted (s : String) : String := "\"" ++ s ++ "\""

def sampleConfig (mounts : List MountConfig) : Config where
  chunkSize := 4096
  poolMaxIdlePerHost := 512
  workers := 1
  mainWorkerThreads := 8
  blockSize := 0
  mounts := mounts
  transportKind := "tcp"

def models : MountConfig := ⟨"models", "account", "weights", ""⟩

def datasets : MountConfig := ⟨"data", "account", "sets", "v2/"⟩

theorem clusterHash_separates_two :
    (sampleConfig [models, datasets]).preimage = (sampleConfig [datasets, models]).preimage ∧
      (sampleConfig [models, datasets]).Agrees (sampleConfig [datasets, models]) := by
  have hnul : ∀ m ∈ [models, datasets], NoNul m := by
    unfold NoNul
    decide
  have hnul' : ∀ m ∈ [datasets, models], NoNul m := by
    unfold NoNul
    decide
  have hsame : (sampleConfig [models, datasets]).preimage =
      (sampleConfig [datasets, models]).preimage := by decide +kernel
  have hc : (sampleConfig [models, datasets]).validate quoted = .ok () := by rfl
  have hc' : (sampleConfig [datasets, models]).validate quoted = .ok () := by rfl
  have hagrees := clusterHash_separates hc hc' (by decide) (by decide) hnul hnul'
  exact ⟨hsame, hagrees.1 hsame⟩

/-! ## The order of the mounts -/

/-- Mounts of one name may be hashed in either order. -/
def OrderHidden (mounts : List MountConfig) : Prop :=
  ∀ a ∈ mounts, ∀ b ∈ mounts, a.name = b.name →
    mountRecord a ++ mountRecord b = mountRecord b ++ mountRecord a

/-- Without NULs that means that mounts of one name are equal. -/
theorem orderHidden_iff {mounts : List MountConfig} (hnul : ∀ m ∈ mounts, NoNul m) :
    OrderHidden mounts ↔ ∀ a ∈ mounts, ∀ b ∈ mounts, a.name = b.name → a = b := by
  constructor
  · intro h a ha b hb hname
    exact (mountRecord_append_inj (hnul a ha) (hnul b hb) (h a ha b hb hname)).1
  · intro h a ha b hb hname
    rw [h a ha b hb hname]

def withMounts (c : Config) (mounts : List MountConfig) : Config := { c with mounts := mounts }

theorem preimage_perm {c : Config} (h : OrderHidden c.mounts) {mounts : List MountConfig}
    (hperm : mounts.Perm c.mounts) : (c.withMounts mounts).preimage = c.preimage := by
  have hsorted := (Sorted.sortBy_perm MountConfig.name mounts).trans
    (hperm.trans (Sorted.sortBy_perm MountConfig.name c.mounts).symm)
  unfold preimage withMounts
  congr 1
  apply Sorted.flatMap_congr_of_perm MountConfig.name (Sorted.sortBy_pairwise _ _)
    (Sorted.sortBy_pairwise _ _) hsorted
  intro a ha b hb hname
  have hmem {m : MountConfig} (hm : m ∈ Sorted.sortBy MountConfig.name mounts) : m ∈ c.mounts :=
    hperm.mem_iff.mp ((Sorted.mem_sortBy _).mp hm)
  exact h a (hmem ha) b (hmem hb) hname

/-- Two mounts of one name are hashed side by side, in the order in which they are
listed. -/
theorem records_commute {c : Config} {a b : MountConfig} {rest : List MountConfig}
    (hname : a.name = b.name)
    (h : (c.withMounts (a :: b :: rest)).preimage = (c.withMounts (b :: a :: rest)).preimage) :
    mountRecord a ++ mountRecord b = mountRecord b ++ mountRecord a := by
  simp only [preimage, withMounts, List.append_cancel_left_eq] at h
  rw [Sorted.sortBy_cons_cons _ hname, Sorted.sortBy_cons_cons _ hname.symm, hname] at h
  simp only [List.flatMap_append, List.flatMap_cons, List.append_cancel_left_eq] at h
  rw [← List.append_assoc, ← List.append_assoc] at h
  exact List.append_cancel_right h

/-- The hash does not depend on the order of the mounts if and only if mounts of
one name may be hashed in either order, unless orders of these mounts collide. -/
theorem clusterHash_perm_iff (c : Config) (sha256 : Bytes → Digest)
    (hcollision : ∀ mounts, mounts.Perm c.mounts →
      sha256 (c.withMounts mounts).preimage = sha256 c.preimage →
        (c.withMounts mounts).preimage = c.preimage) :
    (∀ mounts, mounts.Perm c.mounts →
      (c.withMounts mounts).clusterHash sha256 = c.clusterHash sha256) ↔
      OrderHidden c.mounts := by
  constructor
  · intro hsame a ha b hb hname
    by_cases hab : a = b
    · rw [hab]
    · -- put the two mounts first
      obtain ⟨rest, hrest⟩ : ∃ rest, (a :: b :: rest).Perm c.mounts := by
        have hb' : b ∈ c.mounts.erase a := (List.mem_erase_of_ne fun h => hab h.symm).mpr hb
        refine ⟨(c.mounts.erase a).erase b, ?_⟩
        exact ((List.perm_cons_erase hb').symm.cons a).trans (List.perm_cons_erase ha).symm
      have hrest' : (b :: a :: rest).Perm c.mounts := (List.Perm.swap a b rest).trans hrest
      have hpre := hcollision _ hrest (hsame _ hrest)
      have hpre' := hcollision _ hrest' (hsame _ hrest')
      exact records_commute hname (hpre.trans hpre'.symm)
  · intro hhidden mounts hperm
    rw [clusterHash, clusterHash, preimage_perm hhidden hperm]

/-- The SHA-256 digest of `(sampleConfig [models, datasets]).preimage`. -/
def sampleDigest : Digest :=
  #v[172, 213, 220, 93, 115, 26, 63, 203, 15, 190, 165, 71, 165, 44, 179, 194,
    122, 187, 171, 84, 246, 91, 141, 37, 51, 18, 167, 115, 128, 0, 96, 14]

theorem clusterHash_perm_iff_of_two :
    (∀ mounts, mounts.Perm [models, datasets] →
      (sampleConfig mounts).clusterHash (fun _ => sampleDigest) = sampleDigest) ∧
      OrderHidden [models, datasets] := by
  have hhidden : OrderHidden [models, datasets] :=
    (orderHidden_iff (by unfold NoNul; decide)).mpr (by decide)
  have hiff := clusterHash_perm_iff (sampleConfig [models, datasets]) (fun _ => sampleDigest)
    fun mounts hperm _ => preimage_perm hhidden hperm
  exact ⟨hiff.mpr hhidden, hhidden⟩

/-- `validate` lets two mounts of one name pass. -/
def twice : List MountConfig := [⟨"m", "a", "c", ""⟩, ⟨"m", "b", "c", ""⟩]

theorem duplicate_names_change_hash :
    (sampleConfig twice).validate quoted = .ok () ∧ twice.reverse.Perm twice ∧
      (sampleConfig twice.reverse).preimage ≠ (sampleConfig twice).preimage ∧
      ∀ sha256 : Bytes → Digest,
        (sha256 (sampleConfig twice.reverse).preimage = sha256 (sampleConfig twice).preimage →
          (sampleConfig twice.reverse).preimage = (sampleConfig twice).preimage) →
        (sampleConfig twice.reverse).clusterHash sha256 ≠
          (sampleConfig twice).clusterHash sha256 := by
  have hdiffer : (sampleConfig twice.reverse).preimage ≠ (sampleConfig twice).preimage := by
    decide +kernel
  refine ⟨by rfl, List.reverse_perm twice, hdiffer, ?_⟩
  intro sha256 hcollision hhash
  exact hdiffer (hcollision hhash)

end BlobCache.Conf.Config
