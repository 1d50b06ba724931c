import BlobCache.Fuse.Invariant

/-!
The loops of `ensure_dir_listed`, followed by the list of the names they have met
and the list of those they have added. The cap makes them pass over new names
once there are too many children; what has been met and is not there afterwards
was passed over.
-/

namespace BlobCache.Fuse

/-! ## The names of a listing -/

def dirNames (strip : String) (listing : Listing) : List String :=
  (listing.prefixes.map (dirRel strip)).filter (· ≠ "")

def fileNames (strip : String) (blobs : List ListedBlob) : List String :=
  blobs.filterMap fun b => fileRel strip b.name

def Listing.names (listing : Listing) (strip : String) : List String :=
  dirNames strip listing ++ fileNames strip listing.blobs

/-- The size under which a name is listed, the last one if there are several. -/
def listedSize (strip : String) (blobs : List ListedBlob) (name : String) : Option Nat :=
  (blobs.filter fun b => fileRel strip b.name = some name).getLast?.map ListedBlob.contentLength

def NodeKind.size? : NodeKind → Option Nat
  | .dir _ => none
  | .file size _ _ => some size

namespace Inner

/-! ## One round -/

/-- What an upsert of the name `rel` does to the names of the directory `ino`; a new
node is a directory or not by `dir`. -/
structure Upserted (ino : Nat) (rel : String) (dir : Bool) (g g' : Inner) : Prop where
  wf : g'.Wf
  grows : g.Extends g'
  known : g.byParentName.get? (ino, rel) ≠ none →
    g'.byParentName = g.byParentName ∧ g'.childrenOf ino = g.childrenOf ino
  entry : g.byParentName.get? (ino, rel) = none → ∀ name,
    g'.byParentName.get? (ino, name) =
      if name = rel then some g.nextIno else g.byParentName.get? (ino, name)
  child : g.byParentName.get? (ino, rel) = none →
    g'.childrenOf ino = g.childrenOf ino ++ [g.nextIno]
  kind : g.byParentName.get? (ino, rel) = none → ∀ n, g'.byIno.get? g.nextIno = some n →
    n.kind.isDir = dir

variable {g : Inner} {ino : Nat} (mount : MountConfig)

theorem upserted_addNode (h : g.Wf) (hino : ino < g.nextIno) {rel fullPath : String}
    {kind : NodeKind} {dir : Bool} (hdir : kind.isDir = dir)
    (hnone : g.byParentName.get? (ino, rel) = none) :
    Upserted ino rel dir g (g.addNode ino rel fullPath kind) where
  wf := h.addNode hino hnone
  grows := extends_addNode h rel fullPath kind
  known hne := absurd hnone hne
  entry _ name := by
    rw [byParentName_addNode]
    simp only [Prod.mk.injEq, true_and]
  child _ := by rw [childrenOf_addNode, if_pos rfl]
  kind _ n hn := by
    rw [byIno_addNode, if_pos rfl] at hn
    cases hn
    exact hdir

theorem upserted_upsertDir (h : g.Wf) (hino : ino < g.nextIno) (rel p : String) :
    Upserted ino rel true g (g.upsertDir mount ino rel p) := by
  have hwf := h.upsertDir mount hino rel p
  have hgrows : g.Extends (g.upsertDir mount ino rel p) := extends_upsertDir mount h rel p
  unfold upsertDir at hwf hgrows ⊢
  cases hi : g.byParentName.get? (ino, rel) with
  | some i =>
      simp only [hi] at hwf hgrows ⊢
      exact ⟨hwf, hgrows, fun _ => ⟨rfl, rfl⟩, by simp [hi], by simp [hi], by simp [hi]⟩
  | none =>
      simp only [hi] at hwf hgrows ⊢
      have hadd : Upserted ino rel true g (g.addNode ino rel
          ((getFrom (Node.trimEndSlashes p) (stripPrefixLen mount)).getD "") (.dir false)) :=
        upserted_addNode h hino rfl hi
      refine ⟨hwf, hgrows, by simp [hi], hadd.entry, ?_, hadd.kind⟩
      intro hnone
      rw [childrenOf_openDir]
      exact hadd.child hnone

theorem upserted_upsertFile (h : g.Wf) (hino : ino < g.nextIno) (rel blob : String) (size : Nat)
    (etag : Option String) (mtime : Nat) :
    Upserted ino rel false g (g.upsertFile mount ino rel blob size etag mtime) := by
  have hwf := h.upsertFile mount hino rel blob size etag mtime
  have hgrows : g.Extends (g.upsertFile mount ino rel blob size etag mtime) :=
    extends_upsertFile mount h rel blob size etag mtime
  cases hi : g.byParentName.get? (ino, rel) with
  | none =>
      unfold upsertFile
      simp only [hi]
      exact upserted_addNode h hino rfl hi
  | some i =>
      have hsame := upsertFile_known mount hi blob size etag mtime
      exact ⟨hwf, hgrows, fun _ => hsame, by simp [hi], by simp [hi], by simp [hi]⟩

/-! ## The loops -/

/-- The loops after the names `met`, started from the table `g`: the names `added`
are new, the others are as they were. -/
structure Scanned (g : Inner) (ino : Nat) (dirs met added : List String) (sc : Scan) : Prop where
  wf : sc.inner.Wf
  grows : g.Extends sc.inner
  kept : ∀ {name i}, g.byParentName.get? (ino, name) = some i →
    sc.inner.byParentName.get? (ino, name) = some i
  entries : ∀ {name}, g.byParentName.get? (ino, name) = none →
    (name ∈ added ↔ sc.inner.byParentName.get? (ino, name) ≠ none)
  isNew : ∀ name ∈ added, g.byParentName.get? (ino, name) = none ∧ name ∈ met
  nodup : added.Nodup
  kids : ∃ ks, sc.inner.childrenOf ino = g.childrenOf ino ++ ks ∧ ks.length = added.length ∧
    (∀ k ∈ ks, g.nextIno ≤ k) ∧
    ∀ name ∈ added, ∀ i, sc.inner.byParentName.get? (ino, name) = some i → i ∈ ks
  cap : added = [] ∨ (g.childrenOf ino).length + added.length ≤ maxChildrenPerDir
  full : ∀ name ∈ met, g.byParentName.get? (ino, name) = none → name ∉ added →
    maxChildrenPerDir ≤ (g.childrenOf ino).length + added.length
  seen : ∀ name, name ∈ sc.seen ↔ name ∈ met ∧ sc.inner.byParentName.get? (ino, name) ≠ none
  kind : ∀ name ∈ added, ∀ i n, sc.inner.byParentName.get? (ino, name) = some i →
    sc.inner.byIno.get? i = some n → (n.kind.isDir = true ↔ name ∈ dirs)

theorem Scanned.start (h : g.Wf) (dirs : List String) : Scanned g ino dirs [] [] ⟨g, []⟩ where
  wf := h
  grows := .refl g
  kept hi := hi
  entries hnone := by simp [hnone]
  isNew := by simp
  nodup := List.nodup_nil
  kids := ⟨[], by simp⟩
  cap := .inl rfl
  full := by simp
  seen := by simp
  kind := by simp

theorem Scanned.length {dirs met added : List String} {sc : Scan}
    (h : Scanned g ino dirs met added sc) :
    (sc.inner.childrenOf ino).length = (g.childrenOf ino).length + added.length := by
  obtain ⟨ks, hks, hlen, -⟩ := h.kids
  rw [hks, List.length_append, hlen]

section Rounds

variable {dirs met added : List String} {sc : Scan} {rel : String} {upsert : Inner → Inner}
  {dir : Bool}

/-- A node keeps its kind in a round. -/
theorem Scanned.kind_of_grows (h : Scanned g ino dirs met added sc) {g' : Inner}
    (hgrows : sc.inner.Extends g') {name : String} (hname : name ∈ added) {i : Nat} {n : Node}
    (hi : sc.inner.byParentName.get? (ino, name) = some i) (hn : g'.byIno.get? i = some n) :
    n.kind.isDir = true ↔ name ∈ dirs := by
  obtain ⟨m, hm, -⟩ := h.wf.named hi
  obtain ⟨n', hn', hsame⟩ := hgrows.node hm
  rw [hn] at hn'
  cases hn'
  rw [hsame.isDir]
  exact h.kind name hname i m hi hm

/-- A name that does not fit is passed over. -/
theorem Scanned.dropped (h : Scanned g ino dirs met added sc)
    (hnone : sc.inner.byParentName.get? (ino, rel) = none)
    (hcap : maxChildrenPerDir ≤ (sc.inner.childrenOf ino).length) :
    Scanned g ino dirs (met ++ [rel]) added sc where
  wf := h.wf
  grows := h.grows
  kept := h.kept
  entries := h.entries
  isNew name hname := ⟨(h.isNew name hname).1, List.mem_append_left _ (h.isNew name hname).2⟩
  nodup := h.nodup
  kids := h.kids
  cap := h.cap
  full name hname hg hadded := by
    rw [h.length] at hcap
    exact hcap
  seen name := by
    rw [h.seen, List.mem_append, List.mem_singleton]
    constructor
    · rintro ⟨hmet, hknown⟩
      exact ⟨.inl hmet, hknown⟩
    · rintro ⟨hmet | rfl, hknown⟩
      · exact ⟨hmet, hknown⟩
      · exact absurd hnone hknown
  kind := h.kind

/-- A name that is there is seen. -/
theorem Scanned.again (h : Scanned g ino dirs met added sc)
    (hup : Upserted ino rel dir sc.inner (upsert sc.inner))
    (hknown : sc.inner.byParentName.get? (ino, rel) ≠ none) :
    Scanned g ino dirs (met ++ [rel]) added ⟨upsert sc.inner, rel :: sc.seen⟩ := by
  obtain ⟨hnames, hchildren⟩ := hup.known hknown
  constructor
  case wf => exact hup.wf
  case grows => exact h.grows.trans hup.grows
  case kept =>
    intro name i hi
    rw [hnames]
    exact h.kept hi
  case entries =>
    intro name hnone
    rw [hnames]
    exact h.entries hnone
  case isNew =>
    intro name hname
    exact ⟨(h.isNew name hname).1, List.mem_append_left _ (h.isNew name hname).2⟩
  case nodup => exact h.nodup
  case kids =>
    rw [hchildren, hnames]
    exact h.kids
  case cap => exact h.cap
  case full =>
    intro name hname hg hadded
    rcases List.mem_append.mp hname with hmet | hrel
    · exact h.full name hmet hg hadded
    · obtain rfl := List.mem_singleton.mp hrel
      exact absurd ((h.entries hg).mpr hknown) hadded
  case seen =>
    intro name
    rw [hnames, List.mem_cons, h.seen, List.mem_append, List.mem_singleton]
    constructor
    · rintro (rfl | ⟨hmet, hname⟩)
      · exact ⟨.inr rfl, hknown⟩
      · exact ⟨.inl hmet, hname⟩
    · rintro ⟨hmet | rfl, hname⟩
      · exact .inr ⟨hmet, hname⟩
      · exact .inl rfl
  case kind =>
    intro name hname i n hi hn
    rw [hnames] at hi
    exact h.kind_of_grows hup.grows hname hi hn

theorem Scanned.unknown_before (h : Scanned g ino dirs met added sc)
    (hnone : sc.inner.byParentName.get? (ino, rel) = none) :
    g.byParentName.get? (ino, rel) = none := by
  cases hi : g.byParentName.get? (ino, rel) with
  | none => rfl
  | some i =>
      rw [h.kept hi] at hnone
      cases hnone

/-- As long as there is room, a name that is not there has not been met. -/
theorem Scanned.unmet (h : Scanned g ino dirs met added sc)
    (hnone : sc.inner.byParentName.get? (ino, rel) = none)
    (hcap : (sc.inner.childrenOf ino).length < maxChildrenPerDir) : rel ∉ met := by
  intro hmem
  have hg := h.unknown_before hnone
  have hfull := h.full rel hmem hg fun hadded => (h.entries hg).mp hadded hnone
  rw [h.length] at hcap
  omega

/-- A name that is not there and fits is added. -/
theorem Scanned.inserted (h : Scanned g ino dirs met added sc)
    (hup : Upserted ino rel dir sc.inner (upsert sc.inner))
    (hnone : sc.inner.byParentName.get? (ino, rel) = none)
    (hcap : (sc.inner.childrenOf ino).length < maxChildrenPerDir)
    (hdir : rel ∉ met → (dir = true ↔ rel ∈ dirs)) :
    Scanned g ino dirs (met ++ [rel]) (added ++ [rel]) ⟨upsert sc.inner, rel :: sc.seen⟩ := by
  have hg := h.unknown_before hnone
  have hadded : rel ∉ added := fun hmem => (h.entries hg).mp hmem hnone
  have hlen := h.length
  have hentry := hup.entry hnone
  constructor
  case wf => exact hup.wf
  case grows => exact h.grows.trans hup.grows
  case kept =>
    intro name i hi
    rw [hentry, if_neg, h.kept hi]
    rintro rfl
    rw [hg] at hi
    cases hi
  case entries =>
    intro name hname
    rw [hentry, List.mem_append, List.mem_singleton]
    split
    · rename_i heq
      simp [heq]
    · rename_i hne
      rw [← h.entries hname]
      simp [hne]
  case isNew =>
    intro name hname
    rcases List.mem_append.mp hname with hold | hnew
    · exact ⟨(h.isNew name hold).1, List.mem_append_left _ (h.isNew name hold).2⟩
    · obtain rfl := List.mem_singleton.mp hnew
      exact ⟨hg, List.mem_append_right _ (List.mem_singleton.mpr rfl)⟩
  case nodup =>
    rw [List.nodup_append]
    refine ⟨h.nodup, List.nodup_singleton _, ?_⟩
    rintro name hname name' hname' rfl
    rw [List.mem_singleton.mp hname'] at hname
    exact hadded hname
  case kids =>
    obtain ⟨ks, hks, hlen, hlow, hin⟩ := h.kids
    refine ⟨ks ++ [sc.inner.nextIno], ?_, ?_, ?_, ?_⟩
    · rw [hup.child hnone, hks, List.append_assoc]
    · simp [hlen]
    · intro k hk
      rcases List.mem_append.mp hk with hk | hk
      · exact hlow k hk
      · rw [List.mem_singleton.mp hk]
        exact h.grows.nextIno
    · intro name hname i hi
      rw [hentry] at hi
      split at hi
      · cases hi
        exact List.mem_append_right _ (List.mem_singleton.mpr rfl)
      · rename_i hne
        rcases List.mem_append.mp hname with hold | hnew
        · exact List.mem_append_left _ (hin name hold i hi)
        · exact absurd (List.mem_singleton.mp hnew) hne
  case cap =>
    right
    rw [List.length_append, List.length_singleton]
    omega
  case full =>
    intro name hname hgname hnot
    rw [List.mem_append, not_or] at hnot
    rcases List.mem_append.mp hname with hold | hnew
    · have := h.full name hold hgname hnot.1
      rw [List.length_append, List.length_singleton]
      omega
    · exact absurd hnew hnot.2
  case seen =>
    intro name
    rw [hentry, List.mem_cons, h.seen, List.mem_append, List.mem_singleton]
    split
    · rename_i heq
      simp [heq]
    · rename_i hne
      simp [hne]
  case kind =>
    intro name hname i n hi hn
    rw [hentry] at hi
    split at hi
    · rename_i heq
      cases hi
      rw [hup.kind hnone n hn, heq]
      exact hdir (h.unmet hnone hcap)
    · rename_i hne
      rcases List.mem_append.mp hname with hold | hnew
      · exact h.kind_of_grows hup.grows hold hi hn
      · exact absurd (List.mem_singleton.mp hnew) hne

theorem Scanned.nameRound (h : Scanned g ino dirs met added sc) (upsert : Inner → Inner)
    (hup : Upserted ino rel dir sc.inner (upsert sc.inner))
    (hdir : rel ∉ met → (dir = true ↔ rel ∈ dirs)) :
    ∃ added', Scanned g ino dirs (met ++ [rel]) added' (sc.nameRound ino rel upsert) := by
  unfold Scan.nameRound
  split
  · rename_i hover
    exact ⟨added, h.dropped hover.2 hover.1⟩
  · rename_i hfits
    by_cases hnone : sc.inner.byParentName.get? (ino, rel) = none
    · have hcap : (sc.inner.childrenOf ino).length < maxChildrenPerDir := by
        by_contra hge
        exact hfits ⟨Nat.le_of_not_lt hge, hnone⟩
      exact ⟨_, h.inserted hup hnone hcap hdir⟩
    · exact ⟨added, h.again hup hnone⟩

end Rounds

theorem Scanned.prefixes {dirs met added : List String} {sc : Scan}
    (h : Scanned g ino dirs met added sc) (hino : ino < g.nextIno) (strip : String)
    (ps : List String) (hps : ∀ p ∈ ps, dirRel strip p ≠ "" → dirRel strip p ∈ dirs) :
    ∃ added', Scanned g ino dirs (met ++ (ps.map (dirRel strip)).filter (· ≠ "")) added'
      (ps.foldl (Scan.prefixRound mount ino strip) sc) := by
  induction ps generalizing met added sc with
  | nil =>
      refine ⟨added, ?_⟩
      simpa using h
  | cons p ps ih =>
      have hrest : ∀ p' ∈ ps, dirRel strip p' ≠ "" → dirRel strip p' ∈ dirs :=
        fun p' hp' => hps p' (List.mem_cons_of_mem _ hp')
      rw [List.foldl_cons, List.map_cons]
      by_cases hempty : dirRel strip p = ""
      · have hround : Scan.prefixRound mount ino strip sc p = sc := by
          simp only [Scan.prefixRound, String.isEmpty_iff, hempty, if_true]
        rw [hround, List.filter_cons_of_neg (by simpa using hempty)]
        exact ih h hrest
      · have hround : Scan.prefixRound mount ino strip sc p = sc.nameRound ino (dirRel strip p)
            fun g => g.upsertDir mount ino (dirRel strip p) p := by
          simp only [Scan.prefixRound, String.isEmpty_iff, hempty, if_false]
        have hup := upserted_upsertDir mount h.wf (Nat.lt_of_lt_of_le hino h.grows.nextIno)
          (dirRel strip p) p
        obtain ⟨added', h'⟩ := h.nameRound (fun g => g.upsertDir mount ino (dirRel strip p) p) hup
          fun _ => by simp [hps p List.mem_cons_self hempty]
        rw [hround, List.filter_cons_of_pos (by simpa using hempty), List.append_cons]
        exact ih h' hrest

theorem Scanned.blobs {dirs met added : List String} {sc : Scan}
    (h : Scanned g ino dirs met added sc) (hino : ino < g.nextIno) (strip : String)
    (hdirs : ∀ name ∈ dirs, name ∈ met) (bs : List (ListedBlob × Nat)) :
    ∃ added', Scanned g ino dirs (met ++ fileNames strip (bs.map Prod.fst)) added'
      (bs.foldl (Scan.blobRound mount ino strip) sc) := by
  induction bs generalizing met added sc with
  | nil =>
      refine ⟨added, ?_⟩
      simpa [fileNames] using h
  | cons b bs ih =>
      rw [List.foldl_cons, List.map_cons]
      cases hrel : fileRel strip b.1.name with
      | none =>
          have hround : Scan.blobRound mount ino strip sc b = sc := by
            simp only [Scan.blobRound, hrel]
          have hnames : fileNames strip (b.1 :: bs.map Prod.fst) =
              fileNames strip (bs.map Prod.fst) := List.filterMap_cons_none hrel
          rw [hround, hnames]
          exact ih h hdirs
      | some rel =>
          have hround : Scan.blobRound mount ino strip sc b = sc.nameRound ino rel fun g =>
              g.upsertFile mount ino rel b.1.name b.1.contentLength b.1.etag b.2 := by
            simp only [Scan.blobRound, hrel]
          have hnames : fileNames strip (b.1 :: bs.map Prod.fst) =
              rel :: fileNames strip (bs.map Prod.fst) := List.filterMap_cons_some hrel
          have hup := upserted_upsertFile mount h.wf (Nat.lt_of_lt_of_le hino h.grows.nextIno)
            rel b.1.name b.1.contentLength b.1.etag b.2
          obtain ⟨added', h'⟩ := h.nameRound
            (fun g => g.upsertFile mount ino rel b.1.name b.1.contentLength b.1.etag b.2) hup
            fun hnot => by simpa using fun hmem => hnot (hdirs rel hmem)
          rw [hround, hnames, List.append_cons]
          exact ih h' fun name hname => List.mem_append_left _ (hdirs name hname)

/-- The times that go with the blobs do not matter for their names. -/
private theorem map_fst_stamped (blobs : List ListedBlob) (now : Nat → Nat) :
    (blobs.zipIdx.map fun b => (b.1, now b.2)).map Prod.fst = blobs := by
  rw [List.map_map]
  exact List.zipIdx_map_fst 0 blobs

theorem scan_scanned (h : g.Wf) (hino : ino < g.nextIno) (strip : String) (listing : Listing)
    (now : Nat → Nat) : ∃ added, Scanned g ino (dirNames strip listing) (listing.names strip)
      added (scan mount ino strip listing now g) := by
  have hrel : ∀ p ∈ listing.prefixes, dirRel strip p ≠ "" →
      dirRel strip p ∈ dirNames strip listing := by
    intro p hp hne
    rw [dirNames, List.mem_filter]
    exact ⟨List.mem_map.mpr ⟨p, hp, rfl⟩, by simpa using hne⟩
  obtain ⟨added, hdirs⟩ := (Scanned.start h (dirNames strip listing)).prefixes mount hino strip
    listing.prefixes hrel
  rw [List.nil_append] at hdirs
  obtain ⟨added', hblobs⟩ := hdirs.blobs mount hino strip (fun name hname => hname)
    (listing.blobs.zipIdx.map fun b => (b.1, now b.2))
  refine ⟨added', ?_⟩
  rw [map_fst_stamped] at hblobs
  exact hblobs

/-! ## Sizes -/

end Inner

theorem listedSize_append (strip : String) (blobs : List ListedBlob) (b : ListedBlob)
    (name : String) : listedSize strip (blobs ++ [b]) name =
      if fileRel strip b.name = some name then some b.contentLength
      else listedSize strip blobs name := by
  unfold listedSize
  rw [List.filter_append]
  split
  · rename_i hrel
    rw [List.filter_cons_of_pos (by simpa using hrel), List.filter_nil,
      List.getLast?_concat, Option.map_some]
  · rename_i hrel
    rw [List.filter_cons_of_neg (by simpa using hrel), List.filter_nil, List.append_nil]

theorem mem_fileNames_append {strip : String} {blobs : List ListedBlob} {b : ListedBlob}
    {name : String} : name ∈ fileNames strip (blobs ++ [b]) ↔
      name ∈ fileNames strip blobs ∨ fileRel strip b.name = some name := by
  rw [fileNames, List.filterMap_append, List.mem_append]
  simp [fileNames, eq_comm]

namespace Inner

variable {g : Inner} {ino : Nat} (mount : MountConfig)

/-- The files among the names that were met have the listed sizes. -/
def Sized (g : Inner) (ino : Nat) (strip : String) (blobs : List ListedBlob) : Prop :=
  ∀ name i n, g.byParentName.get? (ino, name) = some i → g.byIno.get? i = some n →
    n.kind.isDir = false → name ∈ fileNames strip blobs →
    n.kind.size? = listedSize strip blobs name

/-- The nodes after `upsert_file` of a known name. -/
theorem byIno_upsertFile_known {rel : String} {j : Nat} {m : Node}
    (hrel : g.byParentName.get? (ino, rel) = some j) (hm : g.byIno.get? j = some m)
    {blob : String} {size : Nat} {etag : Option String} {mtime i : Nat} {n : Node}
    (hn : (g.upsertFile mount ino rel blob size etag mtime).byIno.get? i = some n) :
    (i ≠ j → g.byIno.get? i = some n) ∧
      (i = j → n.kind.isDir = false → n.kind.size? = some size) := by
  unfold upsertFile at hn
  simp only [hrel, hm] at hn
  cases hkind : m.kind with
  | dir loaded =>
      simp only [hkind] at hn
      refine ⟨fun _ => hn, ?_⟩
      rintro rfl hfile
      rw [hm] at hn
      cases hn
      rw [hkind] at hfile
      cases hfile
  | file s e t =>
      simp only [hkind] at hn
      rw [byIno_setKind _ hm] at hn
      split at hn
      · rename_i heq
        cases hn
        exact ⟨fun hne => absurd heq hne, fun _ _ => rfl⟩
      · rename_i hne
        exact ⟨fun _ => hn, fun heq => absurd heq hne⟩

/-- A node after `upsert_file`, by its name. -/
theorem node_upsertFile (h : g.Wf) {rel blob : String} {size : Nat} {etag : Option String}
    {mtime : Nat} {name : String} {i : Nat} {n : Node}
    (hi : (g.upsertFile mount ino rel blob size etag mtime).byParentName.get? (ino, name) = some i)
    (hn : (g.upsertFile mount ino rel blob size etag mtime).byIno.get? i = some n) :
    (name = rel ∧ (n.kind.isDir = false → n.kind.size? = some size)) ∨
      (name ≠ rel ∧ g.byParentName.get? (ino, name) = some i ∧ g.byIno.get? i = some n) := by
  cases hrel : g.byParentName.get? (ino, rel) with
  | none =>
      unfold upsertFile at hi hn
      simp only [hrel] at hi hn
      rw [byParentName_addNode] at hi
      split at hi
      · rename_i heq
        cases heq
        cases hi
        rw [byIno_addNode, if_pos rfl] at hn
        cases hn
        exact .inl ⟨rfl, fun _ => rfl⟩
      · rename_i hne
        rw [byIno_addNode, if_neg (Nat.ne_of_lt (h.name_fresh hi))] at hn
        refine .inr ⟨?_, hi, hn⟩
        rintro rfl
        exact hne rfl
  | some j =>
      obtain ⟨m, hm, -, hname⟩ := h.named hrel
      rw [(upsertFile_known mount hrel blob size etag mtime).1] at hi
      obtain ⟨hothers, hsize⟩ := byIno_upsertFile_known mount hrel hm hn
      by_cases hsame : name = rel
      · subst hsame
        rw [hrel] at hi
        cases hi
        exact .inl ⟨rfl, hsize rfl⟩
      · -- another name leads to another node
        have hne : i ≠ j := by
          rintro rfl
          obtain ⟨m', hm', -, hname'⟩ := h.named hi
          rw [hm] at hm'
          cases hm'
          exact hsame (hname'.symm.trans hname)
        exact .inr ⟨hsame, hi, hothers hne⟩

theorem Sized.round {strip : String} {blobs : List ListedBlob} {sc : Scan}
    (h : sc.inner.Sized ino strip blobs) (hwf : sc.inner.Wf) (b : ListedBlob × Nat) :
    (Scan.blobRound mount ino strip sc b).inner.Sized ino strip (blobs ++ [b.1]) := by
  intro name i n hi hn hfile hmem
  rw [listedSize_append]
  rw [mem_fileNames_append] at hmem
  unfold Scan.blobRound at hi hn
  cases hrel : fileRel strip b.1.name with
  | none =>
      simp only [hrel] at hi hn hmem ⊢
      exact h name i n hi hn hfile (hmem.resolve_right (by simp))
  | some rel =>
      simp only [hrel, Scan.nameRound] at hi hn hmem ⊢
      split at hi
      · rename_i hover
        simp only [hover, and_self, if_true] at hn
        have hne : ¬(some rel = some name) := by
          rintro ⟨⟩
          rw [hover.2] at hi
          cases hi
        rw [if_neg hne]
        exact h name i n hi hn hfile (hmem.resolve_right hne)
      · rename_i hfits
        rw [if_neg hfits] at hn
        rcases node_upsertFile mount hwf hi hn with ⟨rfl, hsize⟩ | ⟨hne, hi', hn'⟩
        · rw [if_pos rfl]
          exact hsize hfile
        · have hne' : ¬(some rel = some name) := fun heq => hne (Option.some.inj heq).symm
          rw [if_neg hne']
          exact h name i n hi' hn' hfile (hmem.resolve_right hne')

theorem Sized.rounds {strip : String} {blobs : List ListedBlob} {sc : Scan}
    (h : sc.inner.Sized ino strip blobs) (hwf : sc.inner.Wf) (hino : ino < sc.inner.nextIno)
    (bs : List (ListedBlob × Nat)) :
    (bs.foldl (Scan.blobRound mount ino strip) sc).inner.Sized ino strip
      (blobs ++ bs.map Prod.fst) := by
  induction bs generalizing blobs sc with
  | nil => simpa using h
  | cons b bs ih =>
      have hnext : (Scan.blobRound mount ino strip sc b).inner.Wf ∧
          ino < (Scan.blobRound mount ino strip sc b).inner.nextIno := by
        unfold Scan.blobRound
        split
        · exact ⟨hwf, hino⟩
        · rename_i rel _
          unfold Scan.nameRound
          split
          · exact ⟨hwf, hino⟩
          · have hup := upserted_upsertFile mount hwf hino rel b.1.name b.1.contentLength
              b.1.etag b.2
            exact ⟨hup.wf, Nat.lt_of_lt_of_le hino hup.grows.nextIno⟩
      rw [List.foldl_cons, List.map_cons, List.append_cons]
      exact ih (h.round mount hwf b) hnext.1 hnext.2

theorem scan_sized (h : g.Wf) (hino : ino < g.nextIno) (strip : String) (listing : Listing)
    (now : Nat → Nat) :
    (scan mount ino strip listing now g).inner.Sized ino strip listing.blobs := by
  obtain ⟨added, hdirs⟩ := (Scanned.start h (listing.prefixes.map (dirRel strip))).prefixes mount
    hino strip listing.prefixes fun p hp _ => List.mem_map.mpr ⟨p, hp, rfl⟩
  have hstart : (listing.prefixes.foldl (Scan.prefixRound mount ino strip) ⟨g, []⟩).inner.Sized
      ino strip [] := by
    intro name i n hi hn hfile hmem
    cases hmem
  have hsized := hstart.rounds mount hdirs.wf (Nat.lt_of_lt_of_le hino hdirs.grows.nextIno)
    (listing.blobs.zipIdx.map fun b => (b.1, now b.2))
  rw [map_fst_stamped, List.nil_append] at hsized
  exact hsized

end Inner

end BlobCache.Fuse
