import BlobCache.Fuse.Reachable
import BlobCache.Fuse.Scan

/-!
When a listing is mirrored. After the update the table shows the listing, or it
does not, by what was there before: names of the other kind stay, names of a
directory that was dropped once stay without being children, and the cap counts
children that are deleted only afterwards.
-/

namespace BlobCache.Fuse

open Conc

def Inner.childNames (g : Inner) (ino : Nat) : List String :=
  ((g.entries ino).drop 2).map DirEntry.name

/-- The table shows the listing. -/
structure Synced (g : Inner) (ino : Nat) (strip : String) (listing : Listing) : Prop where
  nodup : (g.childNames ino).Nodup
  children : ∀ name, name ∈ g.childNames ino ↔ name ∈ listing.names strip
  lookup : ∀ name, (g.byParentName.get? (ino, name)).isSome = true ↔
    name ∈ listing.names strip
  dirs : ∀ name ∈ dirNames strip listing, ∃ n, g.find ino name = .entry n ∧ n.kind.isDir = true
  files : ∀ name ∈ listing.names strip, name ∉ dirNames strip listing →
    ∃ n size, g.find ino name = .entry n ∧ n.kind.size? = some size ∧
      listedSize strip listing.blobs name = some size

/-- The names that the table does not have yet. -/
def newNames (g : Inner) (ino : Nat) (names : List String) : List String :=
  names.dedup.filter fun name => g.byParentName.get? (ino, name) = none

/-- The condition on the table before the update: listed names that it has are of
the listed kind, all names that it has are children, and there is room for the
new names next to the old children. -/
structure Syncable (g : Inner) (ino : Nat) (strip : String) (listing : Listing) : Prop where
  kinds : ∀ name ∈ listing.names strip, ∀ i n, g.byParentName.get? (ino, name) = some i →
    g.byIno.get? i = some n → (n.kind.isDir = true ↔ name ∈ dirNames strip listing)
  linked : ∀ name i, g.byParentName.get? (ino, name) = some i → i ∈ g.childrenOf ino
  room : newNames g ino (listing.names strip) = [] ∨
    (g.childrenOf ino).length + (newNames g ino (listing.names strip)).length ≤
      maxChildrenPerDir

namespace Inner

variable {g : Inner} {ino : Nat} (mount : MountConfig)

/-! ## After the update -/

theorem mem_childNames {name : String} : name ∈ g.childNames ino ↔
    ∃ k ∈ g.childrenOf ino, ∃ n, g.byIno.get? k = some n ∧ n.name = name := by
  constructor
  · intro hmem
    obtain ⟨e, he, rfl⟩ := List.mem_map.mp hmem
    obtain ⟨hk, hn⟩ := mem_entries he
    exact ⟨e.ino, hk, hn⟩
  · rintro ⟨k, hk, n, hn, rfl⟩
    apply List.mem_map.mpr
    refine ⟨⟨k, n.kind.fileType, n.name⟩, ?_, rfl⟩
    exact List.mem_filterMap.mpr ⟨k, hk, by rw [hn, Option.map_some]⟩

theorem byIno_markLoaded {i : Nat} (hi : i ≠ ino) :
    (g.markLoaded ino).byIno.get? i = g.byIno.get? i := by
  unfold markLoaded
  split
  · rename_i n hn
    split
    · rw [byIno_setKind _ hn, if_neg hi]
    · rfl
  · rfl

theorem mem_newNames {names : List String} {name : String} : name ∈ newNames g ino names ↔
    name ∈ names ∧ g.byParentName.get? (ino, name) = none := by
  simp [newNames]

theorem newNames_nodup (g : Inner) (ino : Nat) (names : List String) :
    (newNames g ino names).Nodup :=
  (List.nodup_dedup names).filter _

section Final

variable {strip : String} {listing : Listing} {added : List String} {sc : Scan}

/-- With room for the new names every listed name gets its entry. -/
theorem Scanned.all_known
    (h : Scanned g ino (dirNames strip listing) (listing.names strip) added sc)
    (hroom : newNames g ino (listing.names strip) = [] ∨
      (g.childrenOf ino).length + (newNames g ino (listing.names strip)).length ≤
        maxChildrenPerDir) {name : String} (hname : name ∈ listing.names strip) :
    sc.inner.byParentName.get? (ino, name) ≠ none := by
  cases hg : g.byParentName.get? (ino, name) with
  | some i =>
      rw [h.kept hg]
      simp
  | none =>
      rw [← h.entries hg]
      by_contra hnot
      have hfull := h.full name hname hg hnot
      have hnew : name ∈ newNames g ino (listing.names strip) := mem_newNames.mpr ⟨hname, hg⟩
      -- the names added and this one are all new
      have hsub : name :: added ⊆ newNames g ino (listing.names strip) := by
        intro x hx
        rcases List.mem_cons.mp hx with rfl | hx
        · exact hnew
        · exact mem_newNames.mpr (h.isNew x hx).symm
      have hlen := ((List.nodup_cons.mpr ⟨hnot, h.nodup⟩).subperm hsub).length_le
      rw [List.length_cons] at hlen
      rcases hroom with hnil | hle
      · rw [hnil] at hnew
        cases hnew
      · omega

/-- The new names are those that were added, if each got its entry. -/
theorem Scanned.room_of_known
    (h : Scanned g ino (dirNames strip listing) (listing.names strip) added sc)
    (hknown : ∀ name ∈ listing.names strip, sc.inner.byParentName.get? (ino, name) ≠ none) :
    newNames g ino (listing.names strip) = [] ∨
      (g.childrenOf ino).length + (newNames g ino (listing.names strip)).length ≤
        maxChildrenPerDir := by
  have hsub : newNames g ino (listing.names strip) ⊆ added := by
    intro name hname
    obtain ⟨hlisted, hnone⟩ := mem_newNames.mp hname
    exact (h.entries hnone).mpr (hknown name hlisted)
  have hlen := ((newNames_nodup g ino _).subperm hsub).length_le
  rcases h.cap with rfl | hcap
  · exact .inl (List.eq_nil_of_subset_nil hsub)
  · right
    omega

/-- The table after the deletion and the mark. -/
def Scan.finish (sc : Scan) (ino : Nat) : Inner :=
  ((sc.inner.toRemove ino sc.seen).foldl (removeChild ino) sc.inner).markLoaded ino

theorem byIno_finish {i : Nat} (hi : i ≠ ino) :
    (sc.finish ino).byIno.get? i = sc.inner.byIno.get? i := by
  rw [Scan.finish, byIno_markLoaded hi, byIno_removeAll]

/-- The entries of the directory after the update. -/
theorem byParentName_finish (h : sc.inner.Wf) {name : String} {i : Nat} :
    (sc.finish ino).byParentName.get? (ino, name) = some i ↔
      sc.inner.byParentName.get? (ino, name) = some i ∧
        (name ∈ sc.seen ∨ i ∉ sc.inner.childrenOf ino) := by
  rw [Scan.finish, byParentName_markLoaded, byParentName_removeAll]
  constructor
  · intro hi
    split at hi
    · cases hi
    · rename_i hkept
      refine ⟨hi, ?_⟩
      by_contra hboth
      rw [not_or, not_not] at hboth
      obtain ⟨n, hn, -, hname⟩ := h.named hi
      exact hkept ⟨rfl, mem_toRemove_names.mpr ⟨hboth.1, i, hboth.2, n, hn, hname⟩⟩
  · rintro ⟨hi, hor⟩
    rw [if_neg, hi]
    rintro ⟨-, hmem⟩
    obtain ⟨hseen, k, hk, n, hn, hname⟩ := mem_toRemove_names.mp hmem
    have hki := h.child_of_name hk hn hname hi
    rw [hki] at hk
    exact hor.elim hseen fun hnot => hnot hk

/-- The children of the directory after the update. -/
theorem mem_childNames_finish (h : sc.inner.Wf) {name : String} :
    name ∈ (sc.finish ino).childNames ino ↔ name ∈ sc.seen ∧
      ∃ i, sc.inner.byParentName.get? (ino, name) = some i ∧ i ∈ sc.inner.childrenOf ino := by
  have hself : ino ∉ (sc.inner.toRemove ino sc.seen).map Prod.snd := by
    intro hmem
    obtain ⟨⟨name, j⟩, hj, rfl⟩ := List.mem_map.mp hmem
    exact Nat.lt_irrefl _ (h.child_lt (mem_toRemove.mp hj).1)
  have hkids : (sc.finish ino).childrenOf ino = (sc.inner.childrenOf ino).filter
      (· ∉ (sc.inner.toRemove ino sc.seen).map Prod.snd) := by
    rw [Scan.finish, childrenOf_markLoaded, childrenOf_removeAll, if_neg hself, if_pos rfl]
  rw [mem_childNames, hkids]
  constructor
  · rintro ⟨k, hk, n, hn, rfl⟩
    obtain ⟨hmem, hkept⟩ := List.mem_filter.mp hk
    rw [byIno_finish (Nat.ne_of_gt (h.child_lt hmem))] at hn
    obtain ⟨m, hm, hentry⟩ := h.linked hmem
    rw [hn] at hm
    cases hm
    rw [decide_eq_true_eq, mem_toRemove_inos hn] at hkept
    refine ⟨?_, k, hentry, hmem⟩
    by_contra hnot
    exact hkept ⟨hmem, hnot⟩
  · rintro ⟨hseen, i, hi, hmem⟩
    obtain ⟨n, hn, -, hname⟩ := h.named hi
    refine ⟨i, List.mem_filter.mpr ⟨hmem, ?_⟩, n, ?_, hname⟩
    · rw [decide_eq_true_eq, mem_toRemove_inos hn, hname]
      exact fun hboth => hboth.2 hseen
    · rw [byIno_finish (Nat.ne_of_gt (h.below hi))]
      exact hn

end Final

/-! ## The condition suffices -/

section Sufficient

variable {strip : String} {listing : Listing} {added : List String} {sc : Scan}
  (hsc : Scanned g ino (dirNames strip listing) (listing.names strip) added sc)
  (hs : Syncable g ino strip listing)

include hsc hs

theorem mem_seen {name : String} : name ∈ sc.seen ↔ name ∈ listing.names strip := by
  rw [hsc.seen]
  exact ⟨fun hboth => hboth.1, fun hname => ⟨hname, hsc.all_known hs.room hname⟩⟩

/-- All entries are children. -/
theorem child_of_entry {name : String} {i : Nat}
    (hi : sc.inner.byParentName.get? (ino, name) = some i) : i ∈ sc.inner.childrenOf ino := by
  obtain ⟨ks, hks, -, -, hin⟩ := hsc.kids
  rw [hks]
  cases hg : g.byParentName.get? (ino, name) with
  | some j =>
      have hj := hsc.kept hg
      rw [hi] at hj
      cases hj
      exact List.mem_append_left _ (hs.linked name i hg)
  | none =>
      have hmem : name ∈ added := (hsc.entries hg).mpr (by simp [hi])
      exact List.mem_append_right _ (hin name hmem i hi)

theorem kind_of_listed (h : g.Wf) {name : String} (hname : name ∈ listing.names strip) {i : Nat}
    {n : Node} (hi : sc.inner.byParentName.get? (ino, name) = some i)
    (hn : sc.inner.byIno.get? i = some n) :
    n.kind.isDir = true ↔ name ∈ dirNames strip listing := by
  cases hg : g.byParentName.get? (ino, name) with
  | some j =>
      have hj := hsc.kept hg
      rw [hi] at hj
      cases hj
      obtain ⟨m, hm, -⟩ := h.named hg
      obtain ⟨m', hm', hsame⟩ := hsc.grows.node hm
      rw [hn] at hm'
      cases hm'
      rw [hsame.isDir]
      exact hs.kinds name hname i m hg hm
  | none =>
      have hmem : name ∈ added := (hsc.entries hg).mpr (by simp [hi])
      exact hsc.kind name hmem i n hi hn

/-- A listed name is found after the update, as the node of the scanned table. -/
theorem find_listed {name : String} (hname : name ∈ listing.names strip) :
    ∃ i n, sc.inner.byParentName.get? (ino, name) = some i ∧ sc.inner.byIno.get? i = some n ∧
      (sc.finish ino).find ino name = .entry n := by
  obtain ⟨i, hi⟩ := Option.ne_none_iff_exists'.mp (hsc.all_known hs.room hname)
  obtain ⟨n, hn, -⟩ := hsc.wf.named hi
  refine ⟨i, n, hi, hn, find_eq_entry.mpr ⟨i, ?_, ?_⟩⟩
  · exact (byParentName_finish hsc.wf).mpr ⟨hi, .inl ((mem_seen hsc hs).mpr hname)⟩
  · rw [byIno_finish (Nat.ne_of_gt (hsc.wf.below hi))]
    exact hn

theorem synced_finish (h : g.Wf) (hsized : sc.inner.Sized ino strip listing.blobs)
    (hwf : (sc.finish ino).Wf) : Synced (sc.finish ino) ino strip listing := by
  constructor
  case nodup => exact entries_names_nodup hwf ino
  case children =>
    intro name
    rw [mem_childNames_finish hsc.wf, mem_seen hsc hs]
    constructor
    · exact fun hboth => hboth.1
    · intro hname
      obtain ⟨i, n, hi, -⟩ := find_listed hsc hs hname
      exact ⟨hname, i, hi, child_of_entry hsc hs hi⟩
  case lookup =>
    intro name
    rw [Option.isSome_iff_exists]
    constructor
    · rintro ⟨i, hi⟩
      obtain ⟨hold, hmem | hnot⟩ := (byParentName_finish hsc.wf).mp hi
      · exact (mem_seen hsc hs).mp hmem
      · exact absurd (child_of_entry hsc hs hold) hnot
    · intro hname
      obtain ⟨i, n, -, -, hfound⟩ := find_listed hsc hs hname
      obtain ⟨j, hj, -⟩ := find_eq_entry.mp hfound
      exact ⟨j, hj⟩
  case dirs =>
    intro name hname
    have hlisted : name ∈ listing.names strip := List.mem_append_left _ hname
    obtain ⟨i, n, hi, hn, hfound⟩ := find_listed hsc hs hlisted
    exact ⟨n, hfound, (kind_of_listed hsc hs h hlisted hi hn).mpr hname⟩
  case files =>
    intro name hname hnot
    obtain ⟨i, n, hi, hn, hfound⟩ := find_listed hsc hs hname
    have hfile : n.kind.isDir = false := by
      rw [← Bool.not_eq_true, kind_of_listed hsc hs h hname hi hn]
      exact hnot
    have hblob : name ∈ fileNames strip listing.blobs :=
      (List.mem_append.mp hname).resolve_left hnot
    have hsize := hsized name i n hi hn hfile hblob
    cases hk : n.kind with
    | dir loaded =>
        rw [hk] at hfile
        cases hfile
    | file size etag mtime =>
        rw [hk] at hsize
        exact ⟨n, size, hfound, by rw [hk]; rfl, hsize.symm⟩

end Sufficient

/-! ## The condition is necessary -/

section Necessary

variable {strip : String} {listing : Listing} {added : List String} {sc : Scan}
  (hsc : Scanned g ino (dirNames strip listing) (listing.names strip) added sc)
  (hs : Synced (sc.finish ino) ino strip listing)

include hsc hs

/-- A listed name has the entry it had in the scanned table. -/
theorem entry_of_synced {name : String} (hname : name ∈ listing.names strip) :
    ∃ i, sc.inner.byParentName.get? (ino, name) = some i ∧
      (sc.finish ino).byParentName.get? (ino, name) = some i := by
  obtain ⟨i, hi⟩ := Option.isSome_iff_exists.mp ((hs.lookup name).mpr hname)
  exact ⟨i, ((byParentName_finish hsc.wf).mp hi).1, hi⟩

theorem linked_of_synced (h : g.Wf) {name : String} {i : Nat}
    (hi : g.byParentName.get? (ino, name) = some i) : i ∈ g.childrenOf ino := by
  obtain ⟨ks, hks, -, hlow, -⟩ := hsc.kids
  have hsci := hsc.kept hi
  by_contra hnot
  -- an inode of the old table that is no child does not become one
  have hnotchild : i ∉ sc.inner.childrenOf ino := by
    rw [hks, List.mem_append, not_or]
    refine ⟨hnot, fun hmem => ?_⟩
    have := hlow i hmem
    have := h.name_fresh hi
    omega
  have hentry := (byParentName_finish hsc.wf).mpr ⟨hsci, .inr hnotchild⟩
  have hname := (hs.lookup name).mp (by rw [hentry]; rfl)
  obtain ⟨-, j, hj, hchild⟩ := (mem_childNames_finish hsc.wf).mp ((hs.children name).mpr hname)
  rw [hsci] at hj
  cases hj
  exact hnotchild hchild

theorem kinds_of_synced (h : g.Wf) {name : String} (hname : name ∈ listing.names strip) {i : Nat}
    {n : Node} (hi : g.byParentName.get? (ino, name) = some i) (hn : g.byIno.get? i = some n) :
    n.kind.isDir = true ↔ name ∈ dirNames strip listing := by
  obtain ⟨m, hm, hsame⟩ := hsc.grows.node hn
  obtain ⟨j, hj, hentry⟩ := entry_of_synced hsc hs hname
  rw [hsc.kept hi] at hj
  cases hj
  have hfound : (sc.finish ino).find ino name = .entry m := by
    refine find_eq_entry.mpr ⟨i, hentry, ?_⟩
    rw [byIno_finish (Nat.ne_of_gt (h.below hi))]
    exact hm
  rw [← hsame.isDir]
  constructor
  · intro hdir
    by_contra hnot
    obtain ⟨m', size, hm', hsize, -⟩ := hs.files name hname hnot
    rw [hfound] at hm'
    cases hm'
    cases hk : m.kind with
    | dir loaded =>
        rw [hk] at hsize
        cases hsize
    | file s e t =>
        rw [hk] at hdir
        cases hdir
  · intro hmem
    obtain ⟨m', hm', hdir⟩ := hs.dirs name hmem
    rw [hfound] at hm'
    cases hm'
    exact hdir

theorem syncable_of_finish (h : g.Wf) : Syncable g ino strip listing where
  kinds _ hname _ _ hi hn := kinds_of_synced hsc hs h hname hi hn
  linked _ _ hi := linked_of_synced hsc hs h hi
  room := by
    apply hsc.room_of_known
    intro name hname
    obtain ⟨i, hi, -⟩ := entry_of_synced hsc hs hname
    simp [hi]

end Necessary

/-- The listing is mirrored exactly when the condition holds. -/
theorem synced_applyListing_iff (h : g.Wf) (hino : ino < g.nextIno) (strip : String)
    (listing : Listing) (now : Nat → Nat) :
    Synced (g.applyListing mount ino strip listing now) ino strip listing ↔
      Syncable g ino strip listing := by
  obtain ⟨added, hsc⟩ := scan_scanned mount h hino strip listing now
  have hwf := (applyListing_wf mount h hino strip listing now).1
  constructor
  · exact fun hs => syncable_of_finish hsc hs h
  · exact fun hs => synced_finish hsc hs h (scan_sized mount h hino strip listing now) hwf

end Inner

variable {mount : MountConfig}

/-- In every reachable state: when a request brings a listing to the table, the
directory shows the listing if and only if the condition holds before. -/
theorem listing_synced_iff {c c' : Config (machine mount)} {l : Label (machine mount)} {t ino : Nat}
    {strip : String} {listing : Listing} {ch : Choice}
    (h : Config.Reach (fun _ _ => True) (fresh mount) c)
    (hstep : c.step l = some (.op t (.applyListing ino strip listing) ch, c')) :
    Synced c'.state.inner ino strip listing ↔ Syncable c.state.inner ino strip listing := by
  obtain ⟨ws, hA, hI⟩ := table_sound.reach new_inv (h.mono served_any)
  obtain ⟨th, v, -, hv, -, hpre⟩ := hA.pre_of_step hstep
  obtain ⟨⟨path, hmem, -⟩, -⟩ := hpre
  obtain ⟨n, hn, -⟩ := hI.knows t v hv _ hmem
  obtain ⟨-, -, r, -, -, hex, -⟩ := Config.step_op hstep
  have hnext : c'.state.inner = c.state.inner.applyListing mount ino strip listing ch.now := by
    have heq : exec mount (.applyListing ino strip listing) ch c.state = (r, c'.state) :=
      Option.some.inj hex
    exact (congrArg (fun x => x.2.inner) heq).symm
  rw [hnext]
  exact Inner.synced_applyListing_iff mount hI.wf (hI.wf.fresh hn) strip listing ch.now

def sampleListing : Listing := ⟨[⟨"models/a", 5, none⟩], ["models/b/"]⟩

/-- The first listing of the root. -/
theorem listing_synced_of_sample : ∃ c c' : Config (machine sampleMount), ∃ ch,
    Config.Reach (fun _ _ => True) (fresh sampleMount) c ∧
      c.step (.run 0 ch) = some (.op 0 (.applyListing rootIno "models/" sampleListing) ch, c') ∧
      Synced c'.state.inner rootIno "models/" sampleListing := by
  obtain ⟨c, hreach, hbefore⟩ := Config.reach_of_labels (fresh sampleMount)
    (listingFetched rootIno 0 sampleListing)
    (fun c => decide (pendingListing c 0 = some (rootIno, "models/", sampleListing) ∧
      c.state.inner.byParentName.keys = [] ∧ c.state.inner.childrenOf rootIno = []))
    (by decide +kernel)
  obtain ⟨hpending, hempty, hkids⟩ := of_decide_eq_true hbefore
  obtain ⟨c', hstep⟩ := step_of_pendingListing hpending
  have hnone : ∀ e, c.state.inner.byParentName.get? e = none := by
    intro e
    apply FinMap.not_mem_keys_iff.mp
    rw [hempty]
    exact List.not_mem_nil
  have hsyncable : Syncable c.state.inner rootIno "models/" sampleListing := by
    constructor
    · intro name _ i n hi
      rw [hnone] at hi
      cases hi
    · intro name i hi
      rw [hnone] at hi
      cases hi
    · right
      have hnew : (newNames c.state.inner rootIno (sampleListing.names "models/")).length ≤
          (sampleListing.names "models/").dedup.length := List.length_filter_le _ _
      have htwo : (sampleListing.names "models/").dedup.length = 2 := by decide +kernel
      rw [hkids, List.length_nil, maxChildrenPerDir]
      omega
  exact ⟨c, c', _, hreach, hstep, (listing_synced_iff hreach hstep).mpr hsyncable⟩

/-- A blob that gives way to a directory of the same name stays a file. -/
theorem listing_keeps_other_kind : ∃ c c' : Config (machine sampleMount), ∃ listing ch,
    Config.Reach (fun _ _ => True) (fresh sampleMount) c ∧
      c.step (.run 1 ch) = some (.op 1 (.applyListing rootIno "models/" listing) ch, c') ∧
      (listing.names "models/").dedup.length ≤ maxChildrenPerDir ∧
      ¬Synced c'.state.inner rootIno "models/" listing := by
  obtain ⟨c, hreach, hbefore⟩ := Config.reach_of_labels (fresh sampleMount)
    (listingRun rootIno 0 ⟨[⟨"models/x", 5, none⟩], []⟩ ++
      listingFetched rootIno 1 ⟨[], ["models/x/"]⟩)
    (fun c => decide (pendingListing c 1 = some (rootIno, "models/", ⟨[], ["models/x/"]⟩)) &&
      (c.step (.run 1 .idle)).any fun (next : Event _ × Config (machine sampleMount)) =>
        decide (next.2.state.inner.find rootIno "x" =
          .entry ⟨2, rootIno, "x", "x", .file 5 none 0⟩))
    (by decide +kernel)
  rw [Bool.and_eq_true] at hbefore
  obtain ⟨c', hstep⟩ := step_of_pendingListing (of_decide_eq_true hbefore.1)
  have hfile : c'.state.inner.find rootIno "x" =
      .entry ⟨2, rootIno, "x", "x", .file 5 none 0⟩ := by
    have hany := hbefore.2
    rw [hstep] at hany
    exact of_decide_eq_true hany
  refine ⟨c, c', _, _, hreach, hstep, by decide +kernel, fun hs => ?_⟩
  obtain ⟨n, hn, hdir⟩ := hs.dirs "x" (by decide +kernel)
  rw [hfile] at hn
  cases hn
  cases hdir

end BlobCache.Fuse
