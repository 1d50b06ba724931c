import BlobCache.Fuse.Server

/-!
The inode table in every reachable state. A request knows the paths of the
directories it has looked at; as nodes stay where they are, this is still true
when it comes back with a listing or with the properties of a blob. `Lists`
says which listings the blob service may return.
-/

namespace BlobCache.Fuse

open Conc

variable {mount : MountConfig}

/-- Listings are as `Lists` says. -/
def Served (mount : MountConfig) (Lists : String → Listing → Prop) (_ : State)
    (e : Event (machine mount)) : Prop :=
  ∀ (t : Nat) (pre : String) (c : Choice) (listing : Listing),
    e = .op t (.listBlobs pre) c → c.listing = some listing → Lists pre listing

/-- The local state of a request is the list of the paths it knows. -/
def protocol (mount : MountConfig) (Lists : String → Listing → Prop) :
    Protocol (machine mount) where
  Local := List (Nat × String)
  init _ := []
  jobOk _ := True
  pre l o :=
    match o with
    | .applyListing ino strip listing =>
        (∃ path, (ino, path) ∈ l ∧ strip = listPrefix mount path) ∧ Lists strip listing
    | .insertFound parent name blob _ =>
        ∃ path, (parent, path) ∈ l ∧ blob = candidate mount path name
    | _ => True
  allows _ o r :=
    match o, r with
    | .listBlobs pre, r => ∀ listing, r = some listing → Lists pre listing
    | .insertFound .., r => Option.isSome r = true
    | _, _ => True
  next l o r :=
    match o, r with
    | .getNode ino, some n => (ino, n.fullPath) :: l
    | .find parent _, .miss p => (parent, p.fullPath) :: l
    | _, _ => l
  spawnPre _ _ := True
  spawned l _ := l
  joined l _ _ := l
  post _ reply _ := reply ≠ .panicked
  dead l := l

variable {Lists : String → Listing → Prop}

theorem relist_spec (ino : Nat) (l : List (Nat × String)) :
    (relist mount ino).Sat (protocol mount Lists) l fun _ _ => True := by
  refine ⟨trivial, fun found _ => ?_⟩
  cases found with
  | none => trivial
  | some n =>
      refine ⟨trivial, fun answer hanswer => ?_⟩
      cases answer with
      | none => trivial
      | some listing =>
          refine ⟨⟨⟨n.fullPath, List.mem_cons_self, rfl⟩, hanswer listing rfl⟩, ?_⟩
          exact fun _ _ => ⟨trivial, fun _ _ => trivial⟩

theorem ensureDirListed_spec (ino : Nat) (l : List (Nat × String)) :
    (ensureDirListed mount ino).Sat (protocol mount Lists) l fun _ _ => True := by
  refine ⟨trivial, fun found _ => ?_⟩
  cases found with
  | none => trivial
  | some n =>
      obtain ⟨i, parent, name, path, kind⟩ := n
      cases kind with
      | file size etag mtime => trivial
      | dir childrenLoaded =>
          refine ⟨trivial, fun recent _ => ?_⟩
          cases childrenLoaded with
          | false => exact relist_spec ino _
          | true =>
              cases recent with
              | false => exact relist_spec ino _
              | true => trivial

/-- No request panics. -/
theorem body_spec (j : Request) : (body mount j).Sat (protocol mount Lists) []
    ((protocol mount Lists).post j) := by
  have hpost : ∀ {reply : Reply} {l : List (Nat × String)}, reply ≠ .panicked →
      (pure reply : FuseM Reply).Sat (protocol mount Lists) l
        ((protocol mount Lists).post j) := fun hne => hne
  cases j with
  | getattr ino =>
      refine ⟨trivial, fun found _ => ?_⟩
      cases found with
      | none => exact hpost (by decide)
      | some n => exact hpost (by simp)
  | readdir ino offset room =>
      refine (ensureDirListed_spec ino []).bind fun listed l _ => ?_
      cases listed with
      | error e => exact hpost (by simp)
      | ok _ => exact ⟨trivial, fun _ _ => hpost (by simp)⟩
  | lookup parent name =>
      refine (ensureDirListed_spec parent []).bind fun listed l _ => ?_
      cases listed with
      | error e => exact hpost (by simp)
      | ok _ =>
          refine ⟨trivial, fun found _ => ?_⟩
          cases found with
          | entry n => exact hpost (by simp)
          | noParent => exact hpost (by decide)
          | miss p =>
              refine ⟨trivial, fun answer _ => ?_⟩
              cases answer with
              | none => exact hpost (by decide)
              | some info =>
                  refine ⟨⟨p.fullPath, List.mem_cons_self, rfl⟩, fun inserted hsome => ?_⟩
                  cases inserted with
                  | none => cases hsome
                  | some n => exact hpost (by simp)

/-- The indexings of `lookup` after `upsert_file` succeed. -/
theorem Inner.insertFound_isSome {g : Inner} (h : g.Wf) (parent : Nat) (name blob : String)
    (info : BlobInfo) (mtime : Nat) :
    (g.insertFound mount parent name blob info mtime).1.isSome = true := by
  unfold Inner.insertFound Inner.upsertFile
  cases hi : g.byParentName.get? (parent, name) with
  | none => simp [Inner.byParentName_addNode, Inner.byIno_addNode]
  | some i =>
      obtain ⟨n, hn, -⟩ := h.named hi
      obtain ⟨ino, p, nm, path, kind⟩ := n
      cases kind with
      | dir loaded => simp [hn, hi]
      | file size etag m =>
          have hset := Inner.byIno_setKind (.file info.contentLength info.etag mtime) hn i
          simp only [hn]
          change ((g.byParentName.get? (parent, name)).bind _).isSome = true
          rw [hi, Option.bind_some, hset, if_pos rfl]
          rfl

/-! ## The invariant -/

/-- The paths are those of the table. -/
def Knows (g : Inner) (l : List (Nat × String)) : Prop :=
  ∀ e ∈ l, ∃ n, g.byIno.get? e.1 = some n ∧ n.fullPath = e.2

theorem Knows.of_extends {g g' : Inner} {l : List (Nat × String)} (h : Knows g l)
    (hext : g.Extends g') : Knows g' l := by
  intro e he
  obtain ⟨n, hn, hpath⟩ := h e he
  obtain ⟨n', hn', hsame⟩ := hext.node hn
  exact ⟨n', hn', hsame.fullPath.trans hpath⟩

/-- The table is in order, and requests know paths of the table. -/
structure TableInv (s : State) (ws : Views (protocol mount Lists)) : Prop where
  wf : s.inner.Wf
  knows : ∀ t v, ws t = some v → Knows s.inner v.loc

/-- What an operation does to the table. -/
theorem exec_extends {s s' : State} {l : List (Nat × String)} {o : Op} {c : Choice} {r : o.Resp}
    (hwf : s.inner.Wf) (hl : Knows s.inner l) (hpre : (protocol mount Lists).pre l o)
    (hex : exec mount o c s = (r, s')) : s'.inner.Wf ∧ s.inner.Extends s'.inner := by
  have hknown : ∀ {i path}, (i, path) ∈ l → i < s.inner.nextIno := by
    intro i path hmem
    obtain ⟨n, hn, -⟩ := hl _ hmem
    exact hwf.fresh hn
  cases o with
  | applyListing ino strip listing =>
      cases hex
      obtain ⟨⟨path, hmem, -⟩, -⟩ := hpre
      exact Inner.applyListing_wf mount hwf (hknown hmem) strip listing c.now
  | insertFound parent name blob info =>
      cases hex
      obtain ⟨path, hmem, -⟩ := hpre
      exact ⟨hwf.upsertFile mount (hknown hmem) _ _ _ _ _,
        Inner.extends_upsertFile mount hwf _ _ _ _ _⟩
  | getNode _ | recent _ | listBlobs _ | stamp _ | find _ _ | getBlobProperties _ | entries _ =>
      cases hex
      exact ⟨hwf, .refl _⟩

/-- What an operation tells a request about the table. -/
theorem exec_knows {s s' : State} {l : List (Nat × String)} {o : Op} {c : Choice} {r : o.Resp}
    (hl : Knows s.inner l) (hex : exec mount o c s = (r, s')) :
    Knows s.inner ((protocol mount Lists).next l o r) := by
  cases o with
  | getNode ino =>
      cases hex
      cases hn : s.inner.byIno.get? ino with
      | none => exact hl
      | some n =>
          intro e he
          rcases List.mem_cons.mp he with rfl | he
          · exact ⟨n, hn, rfl⟩
          · exact hl e he
  | find parent name =>
      cases hex
      cases hfind : s.inner.find parent name with
      | entry n => exact hl
      | noParent => exact hl
      | miss p =>
          have hp : s.inner.byIno.get? parent = some p := by
            unfold Inner.find at hfind
            split at hfind
            · cases hfind
            · split at hfind
              · cases hfind
                assumption
              · cases hfind
          intro e he
          rcases List.mem_cons.mp he with rfl | he
          · exact ⟨p, hp, rfl⟩
          · exact hl e he
  | applyListing _ _ _ | insertFound _ _ _ _ | recent _ | listBlobs _ | stamp _
  | getBlobProperties _ | entries _ => exact hl

theorem table_sound : Sound (protocol mount Lists) (Served mount Lists) TableInv where
  body j _ := body_spec j
  start hI ht hext hG :=
    ⟨trivial, hI.wf, Views.forall_update hI.knows (fun e he => by cases he)⟩
  op {s ws t v o c r s'} hI hv hpre hG hex := by
    have hex' : exec mount o c s = (r, s') := Option.some.inj hex
    obtain ⟨hwf, hext⟩ := exec_extends hI.wf (hI.knows t v hv) hpre hex'
    refine ⟨?_, hwf, ?_⟩
    · cases o with
      | listBlobs pre =>
          cases hex
          exact fun listing hlisting => hG t pre c listing rfl hlisting
      | insertFound parent name blob info =>
          cases hex
          exact Inner.insertFound_isSome hI.wf parent name blob info (c.now 0)
      | _ => trivial
    · apply Views.forall_update
      · exact fun u w hu => (hI.knows u w hu).of_extends hext
      · have hnext : Knows s.inner ((protocol mount Lists).next v.loc o r) :=
          exec_knows (hI.knows t v hv) hex'
        exact hnext.of_extends hext
  spawn {s ws t v u j} hI hv hu hjob hpre hG := by
    refine ⟨hI.wf, Views.forall_update (Views.forall_update hI.knows ?_) ?_⟩
    · exact hI.knows t v hv
    · exact fun e he => by cases he
  join hI hv hw hjob hpost := ⟨hI.wf, Views.forall_update hI.knows (hI.knows _ _ hv)⟩
  lost hI hv hw hjob hdead := ⟨hI.wf, Views.forall_update hI.knows (hI.knows _ _ hv)⟩
  cancel hI hv hcan hG := by cases hcan

/-! ## Runs -/

section Runs

variable {c c' : Config (machine mount)}

/-- The server as it is started. -/
def fresh (mount : MountConfig) : Config (machine mount) :=
  Config.init (M := machine mount) State.new

theorem new_inv : @TableInv mount Lists .new fun _ => none :=
  ⟨Inner.new_wf, fun t v hv => by cases hv⟩

/-- Any listing may come when nothing is asked of them. -/
theorem served_any (s : State) (e : Event (machine mount)) (_ : True) :
    Served mount (fun _ _ => True) s e := fun _ _ _ _ _ _ => trivial

theorem reach_wf (h : Config.Reach (Served mount Lists) (fresh mount) c) : c.state.inner.Wf := by
  obtain ⟨ws, -, hI⟩ := table_sound.reach new_inv h
  exact hI.wf

theorem step_extends {l : Label (machine mount)} {e : Event (machine mount)}
    (h : Config.Reach (Served mount Lists) (fresh mount) c) (hstep : c.step l = some (e, c')) :
    c.state.inner.Extends c'.state.inner := by
  obtain ⟨ws, hA, hI⟩ := table_sound.reach new_inv h
  rcases Config.step_state hstep with hsame | ⟨t, o, ch, r, rfl, hex⟩ | ⟨t, rfl, hcan⟩
  · rw [hsame]
    exact .refl _
  · obtain ⟨th, v, -, hv, -, hpre⟩ := hA.pre_of_step hstep
    exact (exec_extends hI.wf (hI.knows t v hv) hpre (Option.some.inj hex)).2
  · rw [hcan]
    exact .refl _

theorem reach_extends (h : Config.Reach (Served mount Lists) (fresh mount) c)
    (h' : Config.Reach (Served mount Lists) c c') : c.state.inner.Extends c'.state.inner := by
  induction h' with
  | refl => exact .refl _
  | tail hreach hstep _ ih => exact ih.trans (step_extends (h.trans hreach) hstep)

end Runs

/-! ## What requests see -/

namespace Inner

variable {g : Inner}

theorem find_eq_entry {ino : Nat} {name : String} {n : Node} : g.find ino name = .entry n ↔
    ∃ i, g.byParentName.get? (ino, name) = some i ∧ g.byIno.get? i = some n := by
  rw [← Option.bind_eq_some_iff]
  unfold find
  split
  · rename_i m hm
    rw [hm]
    simp
  · rename_i hm
    rw [hm]
    split
    · simp
    · simp

/-- The entries after `.` and `..` are the children in their order. -/
theorem entries_children (h : g.Wf) (ino : Nat) :
    ((g.entries ino).drop 2).map DirEntry.ino = g.childrenOf ino := by
  have hall : ∀ ks : List Nat, (∀ k ∈ ks, k ∈ g.childrenOf ino) →
      (ks.filterMap fun k => (g.byIno.get? k).map fun n =>
        (⟨k, n.kind.fileType, n.name⟩ : DirEntry)).map DirEntry.ino = ks := by
    intro ks
    induction ks with
    | nil => exact fun _ => rfl
    | cons k ks ih =>
        intro hks
        obtain ⟨n, hn, -⟩ := h.linked (hks k List.mem_cons_self)
        rw [List.filterMap_cons, hn]
        simp only [Option.map_some, List.map_cons, List.cons.injEq, true_and]
        exact ih fun j hj => hks j (List.mem_cons_of_mem _ hj)
  exact hall _ fun k hk => hk

theorem mem_entries {ino : Nat} {e : DirEntry} (he : e ∈ (g.entries ino).drop 2) :
    e.ino ∈ g.childrenOf ino ∧ ∃ n, g.byIno.get? e.ino = some n ∧ n.name = e.name := by
  obtain ⟨k, hk, hmap⟩ := List.mem_filterMap.mp he
  obtain ⟨n, hn, rfl⟩ := Option.map_eq_some_iff.mp hmap
  exact ⟨hk, n, hn, rfl⟩

theorem find_entry (h : g.Wf) {ino : Nat} {e : DirEntry} (he : e ∈ (g.entries ino).drop 2) :
    ∃ n, g.find ino e.name = .entry n ∧ n.ino = e.ino := by
  obtain ⟨hk, n, hn, hname⟩ := mem_entries he
  obtain ⟨m, hm, hentry⟩ := h.linked hk
  rw [hn] at hm
  cases hm
  rw [hname] at hentry
  exact ⟨n, find_eq_entry.mpr ⟨e.ino, hentry, hn⟩, g.byIno.keyed _ n hn⟩

theorem entries_names_nodup (h : g.Wf) (ino : Nat) :
    (((g.entries ino).drop 2).map DirEntry.name).Nodup := by
  have hinos : (((g.entries ino).drop 2).map DirEntry.ino).Nodup := by
    rw [entries_children h]
    exact h.nodup ino
  apply List.Nodup.map_on _ hinos.of_map
  intro e he e' he' hname
  obtain ⟨n, hn, hino⟩ := find_entry h he
  obtain ⟨n', hn', hino'⟩ := find_entry h he'
  rw [hname, hn'] at hn
  cases hn
  exact List.inj_on_of_nodup_map hinos he he' (hino.symm.trans hino')

end Inner

/-- The agreement of the maps and what requests make of it. The first two entries
of a directory are `.` and `..`, which are not in the table. -/
structure TableOk (g : Inner) : Prop where
  unique : ∀ i n, g.byIno.get? i = some n → n.ino = i ∧ i < g.nextIno
  named : ∀ p name i, g.byParentName.get? (p, name) = some i →
    ∃ n, g.byIno.get? i = some n ∧ n.parent = p ∧ n.name = name
  children : ∀ p ks, g.children.get? p = some ks → ks.Nodup ∧
    ∀ k ∈ ks, ∃ n, g.byIno.get? k = some n ∧ g.byParentName.get? (p, n.name) = some k
  shown : ∀ ino, (((g.entries ino).drop 2).map DirEntry.name).Nodup
  resolved : ∀ ino, ∀ e ∈ (g.entries ino).drop 2,
    ∃ n, g.find ino e.name = .entry n ∧ n.ino = e.ino

theorem Inner.Wf.tableOk {g : Inner} (h : g.Wf) : TableOk g where
  unique i n hn := ⟨g.byIno.keyed i n hn, h.fresh hn⟩
  named _ _ _ hi := h.named hi
  children p ks hks := by
    have hkids : g.childrenOf p = ks := by rw [Inner.childrenOf, hks, Option.getD_some]
    rw [← hkids]
    exact ⟨h.nodup p, fun k hk => h.linked hk⟩
  shown ino := Inner.entries_names_nodup h ino
  resolved _ _ he := Inner.find_entry h he

/-- In every run the table is in order, an inode keeps its place for ever, and no
request panics. -/
theorem inode_table {c c' : Config (machine mount)}
    (h : Config.Reach (fun _ _ => True) (fresh mount) c)
    (h' : Config.Reach (fun _ _ => True) c c') :
    TableOk c.state.inner ∧
      (∀ i n, c.state.inner.byIno.get? i = some n → ∃ n', c'.state.inner.byIno.get? i = some n' ∧
        n'.parent = n.parent ∧ n'.name = n.name ∧ n'.fullPath = n.fullPath) ∧
      ∀ t, c.result t ≠ some .panicked := by
  have hreach := h.mono served_any
  refine ⟨(reach_wf hreach).tableOk, ?_, ?_⟩
  · intro i n hn
    obtain ⟨n', hn', hsame⟩ := (reach_extends hreach (h'.mono served_any)).node hn
    exact ⟨n', hn', hsame.parent, hsame.name, hsame.fullPath⟩
  · intro t hdone
    obtain ⟨ws, hA, -⟩ := table_sound.reach new_inv hreach
    unfold Config.result at hdone
    split at hdone
    · rename_i job parent reply hth
      cases hdone
      obtain ⟨v, -, hok⟩ := hA.thread t _ hth
      exact hok.status rfl
    · cases hdone

/-! ## Replays -/

def sampleMount : MountConfig := ⟨"m", "account", "container", "models/"⟩

def Choice.idle : Choice := ⟨fun _ => 0, 0, none, none⟩

def Choice.listed (listing : Listing) : Choice := { Choice.idle with listing := some listing }

/-- A `readdir` by the thread `t`, up to the point where the listing has come back;
an earlier one is no longer recent. -/
def listingFetched (ino t : Nat) (listing : Listing) : List (Label (machine mount)) :=
  [.start (.readdir ino 0 100), .run t .idle, .run t { Choice.idle with instant := 60000 },
    .run t .idle, .run t (.listed listing)]

/-- A `readdir` from start to end. -/
def listingRun (ino t : Nat) (listing : Listing) : List (Label (machine mount)) :=
  listingFetched ino t listing ++ List.replicate 4 (.run t .idle)

/-- The update that thread `t` is about to make. -/
def pendingListing (c : Config (machine mount)) (t : Nat) : Option (Nat × String × Listing) :=
  match c.threads[t]? with
  | some ⟨_, _, .running (.op (.applyListing ino strip listing) _)⟩ => some (ino, strip, listing)
  | _ => none

theorem step_of_pendingListing {c : Config (machine mount)} {t ino : Nat} {strip : String}
    {listing : Listing} (h : pendingListing c t = some (ino, strip, listing)) :
    ∃ c', c.step (.run t .idle) = some (.op t (.applyListing ino strip listing) .idle, c') := by
  unfold pendingListing at h
  split at h
  · rename_i hth
    cases h
    exact ⟨_, Config.step_of_exec hth rfl rfl⟩
  · cases h

/-- A directory with a file and a subdirectory is listed, and again when the file is gone. Its
inode keeps its place. -/
theorem inode_table_of_listing : ∃ c c' : Config (machine sampleMount),
    Config.Reach (fun _ _ => True) (fresh sampleMount) c ∧
      (c.state.inner.entries rootIno).map DirEntry.name = [".", "..", "b", "a"] ∧
      TableOk c.state.inner ∧ Config.Reach (fun _ _ => True) c c' ∧
      (c'.state.inner.entries rootIno).map DirEntry.name = [".", "..", "b"] ∧
      ∃ n, c'.state.inner.byIno.get? 3 = some n ∧ n.parent = rootIno ∧ n.name = "a" ∧
        n.fullPath = "a" := by
  obtain ⟨c, hreach, hc⟩ := Config.reach_of_labels (fresh sampleMount)
    (listingRun rootIno 0 ⟨[⟨"models/a", 5, none⟩], ["models/b/"]⟩)
    (fun c => decide ((c.state.inner.entries rootIno).map DirEntry.name = [".", "..", "b", "a"] ∧
      c.state.inner.byIno.get? 3 = some ⟨3, rootIno, "a", "a", .file 5 none 0⟩) &&
      (c.replay (fun _ _ => true) (listingRun rootIno 1 ⟨[], ["models/b/"]⟩)).any
        fun c' : Config (machine sampleMount) =>
        decide ((c'.state.inner.entries rootIno).map DirEntry.name = [".", "..", "b"]))
    (by decide +kernel)
  rw [Bool.and_eq_true] at hc
  obtain ⟨hnames, hnode⟩ := of_decide_eq_true hc.1
  obtain ⟨c', hreach', hnames'⟩ := Config.reach_of_labels _ _ _ hc.2
  obtain ⟨htable, hkeeps, -⟩ := inode_table hreach hreach'
  exact ⟨c, c', hreach, hnames, htable, hreach', of_decide_eq_true hnames', hkeeps 3 _ hnode⟩

/-- A blob service may list the name `.`; the directory then shows it twice, and
a lookup does not give the inode of the first entry. -/
theorem entries_show_dot_twice : ∃ c : Config (machine sampleMount),
    Config.Reach (fun _ _ => True) (fresh sampleMount) c ∧
      ¬((c.state.inner.entries rootIno).map DirEntry.name).Nodup ∧
      ∃ e ∈ c.state.inner.entries rootIno,
        ¬∃ n, c.state.inner.find rootIno e.name = .entry n ∧ n.ino = e.ino := by
  obtain ⟨c, hreach, hshown⟩ := Config.reach_of_labels (fresh sampleMount)
    (listingRun rootIno 0 ⟨[], ["models/./"]⟩)
    (fun c => decide (¬((c.state.inner.entries rootIno).map DirEntry.name).Nodup ∧
      c.state.inner.find rootIno "." = .entry ⟨2, rootIno, ".", ".", .dir false⟩))
    (by decide +kernel)
  obtain ⟨hnames, hfind⟩ := of_decide_eq_true hshown
  refine ⟨c, hreach, hnames, ⟨rootIno, .directory, "."⟩, List.mem_cons_self, ?_⟩
  rintro ⟨n, hn, hino⟩
  rw [hfind] at hn
  cases hn
  cases hino

end BlobCache.Fuse
