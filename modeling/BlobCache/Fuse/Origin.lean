import BlobCache.Fuse.Reachable
import BlobCache.Hydrate.Plan

/-!
From a blob's name to a path and back. The file system and the coordinator of a
hydration each take the mount's prefix off the names they list; the fetcher puts
it back. The three go by different rules for slashes, and the path is the right
one only for names and prefixes on which the rules agree.
-/

namespace BlobCache.Fuse

open Conc

variable {mount : MountConfig}

/-- The path of a child. -/
def childPath (parentPath name : String) : String :=
  if parentPath.isEmpty then name else parentPath ++ "/" ++ name

theorem listPrefix_append (mount : MountConfig) (path name : String) :
    listPrefix mount path ++ name = mountPrefix mount ++ childPath path name := by
  unfold listPrefix childPath
  split
  · rw [String.append_empty]
  · simp only [String.append_assoc]

theorem candidate_eq (mount : MountConfig) (path name : String) :
    candidate mount path name = mountPrefix mount ++ childPath path name := by
  unfold candidate childPath
  split
  · rfl
  · simp only [String.append_assoc]

theorem getFrom_mountPrefix (mount : MountConfig) (path : String) :
    getFrom (mountPrefix mount ++ path) (stripPrefixLen mount) = some path := by
  have hlen : (mountPrefix mount).utf8ByteSize = stripPrefixLen mount := by
    unfold mountPrefix stripPrefixLen
    split
    · rfl
    · rw [String.utf8ByteSize_append]
      rfl
  rw [← hlen]
  exact getFrom_append _ _

theorem dirRel_append (strip r : String) : dirRel strip (strip ++ r) = Node.trimEndSlashes r := by
  rw [dirRel, stripPrefix_append, Option.getD_some]

theorem fileRel_append {strip r rel : String} (h : fileRel strip (strip ++ r) = some rel) :
    r = rel := by
  rw [fileRel, stripPrefix_append, Option.getD_some] at h
  split at h
  · cases h
  · exact Option.some.inj h

/-- The service returns only names that start with the prefix sent to it. -/
def Honest (strip : String) (listing : Listing) : Prop :=
  (∀ p ∈ listing.prefixes, ∃ r, p = strip ++ r) ∧ ∀ b ∈ listing.blobs, ∃ r, b.name = strip ++ r

/-! ## The paths in the table -/

namespace Inner

/-- The path of every entry is that of the directory with the name. -/
def Placed (g : Inner) : Prop :=
  ∀ p name i, g.byParentName.get? (p, name) = some i →
    ∃ d n, g.byIno.get? p = some d ∧ g.byIno.get? i = some n ∧
      n.fullPath = childPath d.fullPath name

/-- Entries that were there keep their paths. -/
theorem Placed.keep {g g' : Inner} (h : g.Placed) (hext : g.Extends g') {p i : Nat}
    {name : String} (hi : g.byParentName.get? (p, name) = some i) :
    ∃ d n, g'.byIno.get? p = some d ∧ g'.byIno.get? i = some n ∧
      n.fullPath = childPath d.fullPath name := by
  obtain ⟨d, n, hd, hn, hpath⟩ := h p name i hi
  obtain ⟨d', hd', hsame⟩ := hext.node hd
  obtain ⟨n', hn', hsame'⟩ := hext.node hn
  exact ⟨d', n', hd', hn', by rw [hsame'.fullPath, hsame.fullPath, hpath]⟩

theorem Placed.of_extends {g g' : Inner} (h : g.Placed) (hext : g.Extends g')
    (hsub : ∀ e i, g'.byParentName.get? e = some i → g.byParentName.get? e = some i) :
    g'.Placed :=
  fun _ _ _ hi => h.keep hext (hsub _ _ hi)

theorem Placed.addNode {g : Inner} (h : g.Placed) (hwf : g.Wf) {ino : Nat} {d : Node}
    (hd : g.byIno.get? ino = some d) (name : String) (kind : NodeKind) :
    (g.addNode ino name (childPath d.fullPath name) kind).Placed := by
  have hext : g.Extends (g.addNode ino name (childPath d.fullPath name) kind) :=
    extends_addNode hwf _ _ _
  intro p nm i hi
  rw [byParentName_addNode] at hi
  split at hi
  · rename_i heq
    cases heq
    cases hi
    obtain ⟨d', hd', hsame⟩ := hext.node hd
    exact ⟨d', _, hd', by rw [byIno_addNode, if_pos rfl], by rw [hsame.fullPath]⟩
  · exact h.keep hext hi

theorem Placed.upsertDir {g : Inner} (h : g.Placed) (hwf : g.Wf) {ino : Nat} {d : Node}
    (hd : g.byIno.get? ino = some d) {p r : String}
    (hp : p = listPrefix mount d.fullPath ++ r) (hne : Node.trimEndSlashes r ≠ "") :
    (g.upsertDir mount ino (Node.trimEndSlashes r) p).Placed := by
  have htrim : Node.trimEndSlashes p =
      mountPrefix mount ++ childPath d.fullPath (Node.trimEndSlashes r) := by
    rw [hp, trimEndSlashes_append hne, listPrefix_append]
  unfold Inner.upsertDir
  split
  · exact h
  · simp only [htrim, getFrom_mountPrefix, Option.getD_some]
    exact h.addNode hwf hd _ _

theorem Placed.upsertFile {g : Inner} (h : g.Placed) (hwf : g.Wf) {ino : Nat} {d : Node}
    (hd : g.byIno.get? ino = some d) {blob rel : String}
    (hblob : blob = mountPrefix mount ++ childPath d.fullPath rel) (size : Nat)
    (etag : Option String) (mtime : Nat) :
    (g.upsertFile mount ino rel blob size etag mtime).Placed := by
  have hext : g.Extends (g.upsertFile mount ino rel blob size etag mtime) :=
    extends_upsertFile mount hwf _ _ _ _ _
  cases hrel : g.byParentName.get? (ino, rel) with
  | some i =>
      apply h.of_extends hext
      rw [(upsertFile_known mount hrel blob size etag mtime).1]
      exact fun _ _ hi => hi
  | none =>
      unfold Inner.upsertFile
      simp only [hrel, hblob, getFrom_mountPrefix, Option.getD_some]
      exact h.addNode hwf hd _ _

/-- A listing whose names start with the directory's prefix keeps the paths. -/
theorem Placed.applyListing {g : Inner} (h : g.Placed) (hwf : g.Wf) {ino : Nat} {d : Node}
    (hd : g.byIno.get? ino = some d) {listing : Listing}
    (hlisting : Honest (listPrefix mount d.fullPath) listing) (now : Nat → Nat) :
    (g.applyListing mount ino (listPrefix mount d.fullPath) listing now).Placed := by
  have hino := hwf.fresh hd
  suffices hall : (g.applyListing mount ino (listPrefix mount d.fullPath) listing now).Wf ∧
      g.Extends (g.applyListing mount ino (listPrefix mount d.fullPath) listing now) ∧
      (g.applyListing mount ino (listPrefix mount d.fullPath) listing now).Placed from hall.2.2
  refine applyListing_induction (P := fun g' => g'.Wf ∧ g.Extends g' ∧ g'.Placed) ?_ ?_ ?_ ?_
    ⟨hwf, .refl g, h⟩
  · rintro g' p ⟨hwf', hext, hplaced⟩ hp hne
    obtain ⟨r, rfl⟩ := hlisting.1 p hp
    obtain ⟨d', hd', hsame⟩ := hext.node hd
    rw [dirRel_append] at hne ⊢
    refine ⟨hwf'.upsertDir mount (Nat.lt_of_lt_of_le hino hext.nextIno) _ _,
      hext.trans (extends_upsertDir mount hwf' _ _), hplaced.upsertDir hwf' hd' ?_ hne⟩
    rw [hsame.fullPath]
  · rintro g' b rel mtime ⟨hwf', hext, hplaced⟩ hb hrel
    obtain ⟨r, hr⟩ := hlisting.2 b hb
    obtain ⟨d', hd', hsame⟩ := hext.node hd
    rw [hr] at hrel
    obtain rfl := fileRel_append hrel
    refine ⟨hwf'.upsertFile mount (Nat.lt_of_lt_of_le hino hext.nextIno) _ _ _ _ _,
      hext.trans (extends_upsertFile mount hwf' _ _ _ _ _), hplaced.upsertFile hwf' hd' ?_ _ _ _⟩
    rw [hr, hsame.fullPath, listPrefix_append]
  · rintro g' seen ⟨hwf', hext, hplaced⟩
    have hkeep := extends_removeAll g' ino (g'.toRemove ino seen)
    refine ⟨hwf'.removeAll seen, hext.trans hkeep, hplaced.of_extends hkeep ?_⟩
    rintro ⟨p, name⟩ i hi
    rw [byParentName_removeAll] at hi
    split at hi
    · cases hi
    · exact hi
  · rintro g' ⟨hwf', hext, hplaced⟩
    have hkeep := extends_markLoaded g' ino
    refine ⟨hwf'.markLoaded, hext.trans hkeep, hplaced.of_extends hkeep ?_⟩
    rw [byParentName_markLoaded]
    exact fun _ _ hi => hi

end Inner

/-! ## Runs -/

theorem placed_keeps : Keeps (protocol mount Honest) (Served mount Honest) TableInv
    fun s _ => s.inner.Placed where
  start _ hJ _ _ _ _ := hJ
  op {s ws t v o c r s'} hI hJ hv hpre _ hex _ := by
    have hex' : exec mount o c s = (r, s') := Option.some.inj hex
    cases o with
    | applyListing ino strip listing =>
        cases hex'
        obtain ⟨⟨path, hmem, rfl⟩, hlisting⟩ := hpre
        obtain ⟨d, hd, rfl⟩ := hI.knows t v hv _ hmem
        exact hJ.applyListing hI.wf hd hlisting c.now
    | insertFound parent name blob info =>
        cases hex'
        obtain ⟨path, hmem, rfl⟩ := hpre
        obtain ⟨d, hd, rfl⟩ := hI.knows t v hv _ hmem
        exact hJ.upsertFile hI.wf hd (candidate_eq mount d.fullPath name) _ _ _
    | getNode _ | recent _ | listBlobs _ | stamp _ | find _ _ | getBlobProperties _ | entries _ =>
        cases hex'
        exact hJ
  spawn _ hJ _ _ _ _ _ := hJ
  join _ hJ _ _ _ _ := hJ
  lost _ hJ _ _ _ _ := hJ
  cancel _ hJ _ hcan _ := by cases hcan

/-- A listing that is applied to the table has the blob `name`, for which the table
then has the path `path`. -/
inductive FuseRecords (mount : MountConfig) (name : String) : String → Prop where
  | mk {c c' : Config (machine mount)} {l : Label (machine mount)} {t ino i : Nat}
      {strip rel : String} {listing : Listing} {ch : Choice} {b : ListedBlob} {n : Node} :
      Config.Reach (Served mount Honest) (fresh mount) c →
      c.step l = some (.op t (.applyListing ino strip listing) ch, c') →
      b ∈ listing.blobs → b.name = name → fileRel strip name = some rel →
      c'.state.inner.byParentName.get? (ino, rel) = some i →
      c'.state.inner.byIno.get? i = some n → FuseRecords mount name n.fullPath

theorem FuseRecords.name_eq {name path : String} (h : FuseRecords mount name path) :
    name = mountPrefix mount ++ path := by
  obtain ⟨hreach, hstep, hb, rfl, hrel, hi, hn⟩ := h
  obtain ⟨ws, hA, hI⟩ := table_sound.reach new_inv hreach
  obtain ⟨th, v, -, hv, -, hpre⟩ := hA.pre_of_step hstep
  obtain ⟨⟨dir, hmem, rfl⟩, hlisting⟩ := hpre
  obtain ⟨r, hr⟩ := hlisting.2 _ hb
  rw [hr] at hrel ⊢
  obtain rfl := fileRel_append hrel
  have hserved := hreach.tail hstep fun _ _ _ _ he _ => by cases he
  obtain ⟨ws', -, -, hplaced⟩ := (table_sound.and placed_keeps).reach
    ⟨new_inv, fun p name i hi => by cases hi⟩ hserved
  -- the directory has kept its path
  obtain ⟨d, hd, hdir⟩ := hI.knows _ v hv _ hmem
  obtain ⟨d', hd', hsame⟩ := (step_extends hreach hstep).node hd
  obtain ⟨d'', n', hd'', hn', hpath⟩ := hplaced _ _ _ hi
  rw [hd'] at hd''
  cases hd''
  rw [hn] at hn'
  cases hn'
  rw [listPrefix_append, hpath, hsame.fullPath, hdir]

/-! ## There and back -/

open Hydrate (combinedPrefix blobPath)

theorem realPath_of_empty {path : String} (h : mount.pathPrefix = "") :
    Node.realPath mount path = path := by
  rw [Node.realPath, h]
  rfl

theorem realPath_of_ne {path : String} (h : mount.pathPrefix ≠ "") :
    Node.realPath mount path = Node.trimEndSlashes mount.pathPrefix ++ "/" ++ path := by
  rw [Node.realPath, isEmpty_eq_false_iff.mpr h]
  rfl

theorem realPath_inj {path path' : String}
    (h : Node.realPath mount path = Node.realPath mount path') : path = path' := by
  by_cases hempty : mount.pathPrefix = ""
  · rwa [realPath_of_empty hempty, realPath_of_empty hempty] at h
  · rw [realPath_of_ne hempty, realPath_of_ne hempty] at h
    have hlists := congrArg String.toList h
    simp only [String.toList_append, List.append_cancel_left_eq] at hlists
    exact String.toList_inj.mp hlists

/-- What the file system records is fetched from where it was listed. -/
theorem realPath_fuse_iff {name path : String} (h : name = mountPrefix mount ++ path) :
    Node.realPath mount path = name ↔ PrefixPlain mount.pathPrefix := by
  by_cases hempty : mount.pathPrefix = ""
  · have hname : name = path := by
      rw [h, mountPrefix, if_pos (String.isEmpty_iff.mpr hempty), String.empty_append]
    rw [realPath_of_empty hempty, hname, hempty]
    simp [PrefixPlain]
  · have hne : ¬mount.pathPrefix.isEmpty = true := fun h => hempty (String.isEmpty_iff.mp h)
    rw [realPath_of_ne hempty, h, mountPrefix, if_neg hne, append_slash_inj,
      trimEndSlashes_eq_trimSlashes_iff]

theorem blobPath_append (h : mount.pathPrefix ≠ "") (r : String) :
    blobPath mount (mount.pathPrefix ++ r) = trimStartSlashes r := by
  have hdrop : String.ofList ((mount.pathPrefix ++ r).toList.drop
      mount.pathPrefix.toList.length) = r := by
    rw [String.toList_append, List.drop_left, String.ofList_toList]
  rw [blobPath, if_pos ⟨fun hempty => h (String.isEmpty_iff.mp hempty),
    isPrefixOf_iff.mpr ⟨r, rfl⟩⟩, hdrop]

theorem blobPath_of_not {name : String} (h : mount.pathPrefix = "" ∨
    ¬∃ r, name = mount.pathPrefix ++ r) : blobPath mount name = name := by
  rw [blobPath, if_neg]
  rintro ⟨hne, hpre⟩
  rcases h with hempty | hnot
  · exact hne (String.isEmpty_iff.mpr hempty)
  · exact hnot (isPrefixOf_iff.mp hpre)

/-- What a hydration records is fetched from where it was listed. -/
theorem realPath_blobPath_iff (mount : MountConfig) (name : String) :
    Node.realPath mount (blobPath mount name) = name ↔
      mount.pathPrefix = "" ∨ NamedBelow mount.pathPrefix name := by
  by_cases hempty : mount.pathPrefix = ""
  · rw [blobPath_of_not (.inl hempty), realPath_of_empty hempty]
    simp [hempty]
  · rw [realPath_of_ne hempty]
    simp only [hempty, false_or]
    by_cases hpre : ∃ r, name = mount.pathPrefix ++ r
    · obtain ⟨r, rfl⟩ := hpre
      rw [blobPath_append hempty]
      constructor
      · exact fun heq => ⟨⟨r, rfl⟩, trimStartSlashes r, heq.symm, head_trimStartSlashes r⟩
      · rintro ⟨-, rest, heq, hrest⟩
        rw [trimStartSlashes_of_below heq hrest, heq]
    · rw [blobPath_of_not (.inr hpre)]
      constructor
      · intro heq
        -- the path would be shorter than itself
        have hlen := congrArg (fun s => s.toList.length) heq
        simp only [String.toList_append, List.length_append] at hlen
        have hslash : "/".toList.length = 1 := rfl
        omega
      · exact fun hbelow => absurd hbelow.1 hpre

/-! ## The claim about all names -/

/-- A hydration of `path` lists the blob `name` and takes it to be at `rel`. -/
def HydrateRecords (mount : MountConfig) (path name rel : String) : Prop :=
  (∃ r, name = combinedPrefix mount path ++ r) ∧ rel = blobPath mount name

/-- The paths recorded for a name lead back to it and are the same. -/
structure PathsAgree (mount : MountConfig) (path name : String) : Prop where
  fuse : ∀ rel, FuseRecords mount name rel → Node.realPath mount rel = name
  hydrate : ∀ rel, HydrateRecords mount path name rel → Node.realPath mount rel = name
  same : ∀ rel rel', FuseRecords mount name rel → HydrateRecords mount path name rel' → rel = rel'

theorem pathsAgree_iff (mount : MountConfig) (path name : String) :
    PathsAgree mount path name ↔
      ((∃ rel, FuseRecords mount name rel) → PrefixPlain mount.pathPrefix) ∧
      ((∃ rel, HydrateRecords mount path name rel) →
        mount.pathPrefix = "" ∨ NamedBelow mount.pathPrefix name) := by
  constructor
  · intro h
    refine ⟨?_, ?_⟩
    · rintro ⟨rel, hrel⟩
      exact (realPath_fuse_iff hrel.name_eq).mp (h.fuse rel hrel)
    · rintro ⟨rel, hrel⟩
      have hback := h.hydrate rel hrel
      rw [hrel.2] at hback
      exact (realPath_blobPath_iff mount name).mp hback
  · rintro ⟨hplain, hbelow⟩
    have hfuse : ∀ rel, FuseRecords mount name rel → Node.realPath mount rel = name :=
      fun rel hrel => (realPath_fuse_iff hrel.name_eq).mpr (hplain ⟨rel, hrel⟩)
    have hhydrate : ∀ rel, HydrateRecords mount path name rel →
        Node.realPath mount rel = name := by
      intro rel hrel
      rw [hrel.2]
      exact (realPath_blobPath_iff mount name).mpr (hbelow ⟨rel, hrel⟩)
    refine ⟨hfuse, hhydrate, ?_⟩
    intro rel rel' hrel hrel'
    exact realPath_inj ((hfuse rel hrel).trans (hhydrate rel' hrel').symm)

/-! ## Names that are lost -/

/-- `Honest`, and so `Served`, as a check. -/
def servedCheck (_ : State) : Event (machine mount) → Bool
  | .op _ (.listBlobs pre) c =>
      c.listing.all fun listing =>
        listing.prefixes.all (fun p => pre.toList.isPrefixOf p.toList) &&
          listing.blobs.all fun b => pre.toList.isPrefixOf b.name.toList
  | _ => true

theorem served_of_check (s : State) (e : Event (machine mount)) (h : servedCheck s e = true) :
    Served mount Honest s e := by
  rintro t pre c listing rfl hlisting
  simp only [servedCheck, hlisting, Option.all_some, Bool.and_eq_true, List.all_eq_true,
    isPrefixOf_iff] at h
  exact h

def slashMount : MountConfig := ⟨"m", "account", "container", "/models"⟩

def siblingMount : MountConfig := ⟨"m", "account", "container", "models"⟩

theorem slashMount_records : FuseRecords slashMount "models/x" "x" := by
  obtain ⟨c, hreach, hbefore⟩ := Config.reach_of_replay served_of_check (fresh slashMount)
    (listingFetched rootIno 0 ⟨[⟨"models/x", 5, none⟩], []⟩)
    (fun c => decide (pendingListing c 0 =
        some (rootIno, "models/", ⟨[⟨"models/x", 5, none⟩], []⟩)) &&
      (c.step (.run 0 .idle)).any fun (next : Event _ × Config (machine slashMount)) =>
        decide (next.2.state.inner.find rootIno "x" =
          .entry ⟨2, rootIno, "x", "x", .file 5 none 0⟩))
    (by decide +kernel)
  rw [Bool.and_eq_true] at hbefore
  obtain ⟨c', hstep⟩ := step_of_pendingListing (of_decide_eq_true hbefore.1)
  have hany := hbefore.2
  rw [hstep] at hany
  obtain ⟨i, hi, hn⟩ := Inner.find_eq_entry.mp (of_decide_eq_true hany)
  exact .mk (n := ⟨2, rootIno, "x", "x", .file 5 none 0⟩) hreach hstep List.mem_cons_self rfl
    (by decide +kernel) hi hn

/-- With the prefix `/models` the file system reads `/models/x` for `models/x`; with
`models` a hydration reads `models/2/x` for its sibling `models2/x`. -/
theorem paths_disagree : ¬PathsAgree slashMount "" "models/x" ∧
    ¬PathsAgree siblingMount "" "models2/x" := by
  constructor
  · intro h
    have hback := h.fuse "x" slashMount_records
    exact absurd hback (by decide +kernel)
  · intro h
    have hback := h.hydrate "2/x" ⟨⟨"2/x", by decide +kernel⟩, by decide +kernel⟩
    exact absurd hback (by decide +kernel)

end BlobCache.Fuse
