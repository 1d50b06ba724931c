import BlobCache.Fuse.Sync

/-!
Reading a directory page by page. An offset is a position in the list of entries, which
is built anew for every page from the children that the table has then. New children go
to its end, and a listing takes out those that it does not name.

So the entries that have been returned stay where they are as long as no listing leaves
one of them out, and then the pages are the directory, cut into pieces. When one of them
goes, all that follow move up, and the next page skips the first of them.
-/

namespace BlobCache.Fuse

open Conc

namespace Inner

variable {g : Inner} {d ino : Nat} (mount : MountConfig)

/-! ## The children after a listing -/

theorem childrenOf_upsertDir_of_ne (hne : ino ≠ d) (g : Inner) (rel p : String) :
    (g.upsertDir mount d rel p).childrenOf ino = g.childrenOf ino := by
  unfold upsertDir
  split
  · rfl
  · rw [childrenOf_openDir, childrenOf_addNode, if_neg hne]

theorem childrenOf_upsertFile_of_ne (hne : ino ≠ d) (g : Inner) (rel blob : String) (size : Nat)
    (etag : Option String) (mtime : Nat) :
    (g.upsertFile mount d rel blob size etag mtime).childrenOf ino = g.childrenOf ino := by
  unfold upsertFile
  split
  · split
    · split <;> rfl
    · rfl
  · rw [childrenOf_addNode, if_neg hne]

/-- A file that is looked up goes to the end. -/
theorem childrenOf_upsertFile (h : g.Wf) (hd : d < g.nextIno) (ino : Nat) (rel blob : String)
    (size : Nat) (etag : Option String) (mtime : Nat) :
    ∃ new, (g.upsertFile mount d rel blob size etag mtime).childrenOf ino =
      g.childrenOf ino ++ new := by
  by_cases heq : ino = d
  · subst heq
    have hup := upserted_upsertFile mount h hd rel blob size etag mtime
    by_cases hnone : g.byParentName.get? (ino, rel) = none
    · exact ⟨[g.nextIno], hup.child hnone⟩
    · refine ⟨[], ?_⟩
      rw [List.append_nil]
      exact (hup.known hnone).2
  · refine ⟨[], ?_⟩
    rw [List.append_nil]
    exact childrenOf_upsertFile_of_ne mount heq g rel blob size etag mtime

theorem childrenOf_scan_of_ne (hne : ino ≠ d) (strip : String) (listing : Listing)
    (now : Nat → Nat) (g : Inner) :
    (scan mount d strip listing now g).inner.childrenOf ino = g.childrenOf ino := by
  apply scan_induction (P := fun g' => g'.childrenOf ino = g.childrenOf ino)
  · intro g' p hg' _ _
    rw [childrenOf_upsertDir_of_ne mount hne, hg']
  · intro g' b rel mtime hg' _ _
    rw [childrenOf_upsertFile_of_ne mount hne, hg']
  · rfl

/-- The listing of `d` takes the child `k` of `ino` out of the table: it does not name it, or
it does not name the directory itself. -/
def Drops (g : Inner) (d : Nat) (strip : String) (listing : Listing) (ino k : Nat) : Prop :=
  (d = ino ∧ ∃ n, g.byIno.get? k = some n ∧ n.name ∉ listing.names strip) ∨
    (ino ∈ g.childrenOf d ∧ ∃ n, g.byIno.get? ino = some n ∧ n.name ∉ listing.names strip)

section Listing

variable {strip : String} {listing : Listing} {dirs added : List String} {sc : Scan}

/-- A child that is removed was not named. -/
theorem unnamed_of_removed (h : g.Wf)
    (hsc : Scanned g d dirs (listing.names strip) added sc) {k : Nat} (hk : k ∈ g.childrenOf d)
    (hremoved : k ∈ (sc.inner.toRemove d sc.seen).map Prod.snd) :
    ∃ n, g.byIno.get? k = some n ∧ n.name ∉ listing.names strip := by
  obtain ⟨n, hn, hentry⟩ := h.linked hk
  obtain ⟨n', hn', hsame⟩ := hsc.grows.node hn
  obtain ⟨-, hseen⟩ := (mem_toRemove_inos hn').mp hremoved
  refine ⟨n, hn, ?_⟩
  intro hnamed
  rw [hsame.name, hsc.seen] at hseen
  apply hseen
  rw [hsc.kept hentry]
  exact ⟨hnamed, by simp⟩

/-- The children that stay are in their order, before the new ones. -/
theorem childrenOf_applyListing (h : g.Wf) (hd : d < g.nextIno) (strip : String)
    (listing : Listing) (now : Nat → Nat) (ino : Nat) :
    ∃ (kept : Nat → Bool) (new : List Nat),
      (g.applyListing mount d strip listing now).childrenOf ino =
        (g.childrenOf ino).filter kept ++ new ∧
      ∀ k ∈ g.childrenOf ino, kept k = false → g.Drops d strip listing ino k := by
  obtain ⟨added, hsc⟩ := scan_scanned mount h hd strip listing now
  let sc := scan mount d strip listing now g
  let gone := (sc.inner.toRemove d sc.seen).map Prod.snd
  have hupdate : (g.applyListing mount d strip listing now).childrenOf ino =
      if ino ∈ gone then []
      else if ino = d then (sc.inner.childrenOf ino).filter (· ∉ gone)
      else sc.inner.childrenOf ino :=
    (childrenOf_markLoaded _ d ino).trans (childrenOf_removeAll _ d _ ino)
  rw [hupdate]
  obtain ⟨ks, hks, -, hlow, -⟩ := hsc.kids
  split
  · -- the directory itself goes
    rename_i hremoved
    refine ⟨fun _ => false, [], by simp, ?_⟩
    intro k hk _
    have hino : ino < g.nextIno := Nat.lt_trans (h.child_lt hk) (h.child_fresh hk)
    have hmem : ino ∈ g.childrenOf d := by
      obtain ⟨⟨name, i⟩, hi, rfl⟩ := List.mem_map.mp hremoved
      have hchild := (mem_toRemove.mp hi).1
      rw [hks] at hchild
      rcases List.mem_append.mp hchild with hold | hnew
      · exact hold
      · exact absurd (hlow _ hnew) (Nat.not_le.mpr hino)
    exact .inr ⟨hmem, unnamed_of_removed h hsc hmem hremoved⟩
  · split
    · rename_i heq
      subst heq
      refine ⟨(· ∉ gone), ks.filter (· ∉ gone), ?_, ?_⟩
      · rw [hks, List.filter_append]
      · intro k hk hgone
        have hremoved := not_not.mp (of_decide_eq_false hgone)
        exact .inl ⟨rfl, unnamed_of_removed h hsc hk hremoved⟩
    · rename_i hne
      refine ⟨fun _ => true, [], ?_, ?_⟩
      · rw [childrenOf_scan_of_ne mount hne]
        simp
      · intro k _ hgone
        cases hgone

end Listing

/-! ## The entries after a listing -/

/-- The entry of a child. -/
def entryOf (g : Inner) (k : Nat) : Option DirEntry :=
  (g.byIno.get? k).map fun n => ⟨k, n.kind.fileType, n.name⟩

theorem fileType_eq {kind kind' : NodeKind} (h : kind'.isDir = kind.isDir) :
    kind'.fileType = kind.fileType := by
  cases kind with
  | dir _ =>
      cases kind' with
      | dir _ => rfl
      | file _ _ _ => cases h
  | file _ _ _ =>
      cases kind' with
      | dir _ => cases h
      | file _ _ _ => rfl

variable {g' : Inner}

theorem entryOf_extends (hext : g.Extends g') {k : Nat} {n : Node}
    (hn : g.byIno.get? k = some n) : g'.entryOf k = g.entryOf k := by
  obtain ⟨n', hn', hsame⟩ := hext.node hn
  rw [entryOf, entryOf, hn, hn', Option.map_some, Option.map_some, hsame.name,
    fileType_eq hsame.isDir]

/-- The children that stay are shown as before. -/
theorem filterMap_entryOf (hext : g.Extends g') (kept : Nat → Bool) {ks : List Nat}
    (hks : ∀ k ∈ ks, ∃ n, g.byIno.get? k = some n) :
    (ks.filter kept).filterMap g'.entryOf =
      (ks.filterMap g.entryOf).filter fun e => kept e.ino := by
  induction ks with
  | nil => rfl
  | cons k ks ih =>
      obtain ⟨n, hn⟩ := hks k List.mem_cons_self
      have hrest := ih fun i hi => hks i (List.mem_cons_of_mem _ hi)
      have hentry : g.entryOf k = some ⟨k, n.kind.fileType, n.name⟩ := by
        rw [entryOf, hn, Option.map_some]
      rw [List.filterMap_cons_some hentry]
      cases hkept : kept k with
      | true =>
          rw [List.filter_cons_of_pos hkept,
            List.filterMap_cons_some ((entryOf_extends hext hn).trans hentry), hrest,
            List.filter_cons_of_pos (p := fun e : DirEntry => kept e.ino) hkept]
      | false =>
          rw [List.filter_cons_of_neg (by simp [hkept]), List.filter_cons_of_neg (by simp [hkept]),
            hrest]

/-- What was returned of the entries still stands at their start, if none of its children
has gone. -/
theorem prefix_entries (h : g.Wf) (hext : g.Extends g') {n : Node}
    (hino : g.byIno.get? ino = some n) {kept : Nat → Bool} {new : List Nat}
    (hchildren : g'.childrenOf ino = (g.childrenOf ino).filter kept ++ new)
    {got : List DirEntry} (hgot : got <+: g.entries ino)
    (hkept : ∀ e ∈ got.drop 2, kept e.ino = true) : got <+: g'.entries ino := by
  obtain ⟨n', hino', hsame⟩ := hext.node hino
  have hrest : (g'.childrenOf ino).filterMap g'.entryOf =
      ((g.childrenOf ino).filterMap g.entryOf).filter (fun e => kept e.ino) ++
        new.filterMap g'.entryOf := by
    rw [hchildren, List.filterMap_append, filterMap_entryOf hext kept]
    intro k hk
    obtain ⟨m, hm, -⟩ := h.linked hk
    exact ⟨m, hm⟩
  have hold : g.entries ino = ⟨ino, .directory, "."⟩ :: ⟨n.parent, .directory, ".."⟩ ::
      (g.childrenOf ino).filterMap g.entryOf := by
    rw [entries, hino]
    rfl
  have hnew : g'.entries ino = ⟨ino, .directory, "."⟩ :: ⟨n.parent, .directory, ".."⟩ ::
      (g'.childrenOf ino).filterMap g'.entryOf := by
    rw [entries, hino', Option.map_some, hsame.parent]
    rfl
  rw [hold] at hgot
  rw [hnew, hrest]
  cases got with
  | nil => exact List.nil_prefix
  | cons dot got =>
      rw [List.cons_prefix_cons] at hgot ⊢
      obtain ⟨rfl, hgot⟩ := hgot
      refine ⟨rfl, ?_⟩
      cases got with
      | nil => exact List.nil_prefix
      | cons dots got =>
          rw [List.cons_prefix_cons] at hgot ⊢
          obtain ⟨rfl, tail, htail⟩ := hgot
          refine ⟨rfl, ?_⟩
          have hall : got.filter (fun e => kept e.ino) = got := List.filter_eq_self.mpr hkept
          rw [← htail, List.filter_append, hall, List.append_assoc]
          exact List.prefix_append _ _

/-- The names of the children in a piece from the start. -/
theorem names_of_prefix {got : List DirEntry} (hgot : got <+: g.entries ino) :
    (got.drop 2).map DirEntry.name = (g.childNames ino).take (got.length - 2) := by
  rw [childNames, ← List.map_take, ← List.drop_take, ← List.prefix_iff_eq_take.mp hgot]

end Inner

/-! ## Steps -/

variable {mount : MountConfig}

/-- The listings that do not disturb a reading of `ino` up to the offset `off`: a listing of
the directory names all children that have been returned, and a listing that has the
directory as a child names it. -/
def Undisturbed (ino off : Nat) (s : State) : Event (machine mount) → Prop
  | .op _ (.applyListing d strip listing) _ =>
      (d = ino → ∀ name ∈ (s.inner.childNames ino).take (off - 2), name ∈ listing.names strip) ∧
        (ino ∈ s.inner.childrenOf d → ∀ n, s.inner.byIno.get? ino = some n →
          n.name ∈ listing.names strip)
  | _ => True

/-- Every listing of the directory has the name. -/
def Names (ino : Nat) (name : String) : Event (machine mount) → Prop
  | .op _ (.applyListing d strip listing) _ => d = ino → name ∈ listing.names strip
  | _ => True

section Steps

variable {c c' : Config (machine mount)} {l : Label (machine mount)} {e : Event (machine mount)}
  {ino : Nat}

/-- The event takes the child out of the table. -/
def DropsChild (s : State) (e : Event (machine mount)) (ino k : Nat) : Prop :=
  ∃ t d strip listing ch, e = .op t (.applyListing d strip listing) ch ∧
    s.inner.Drops d strip listing ino k

/-- What a step does to the children of a directory. -/
theorem step_children (h : Config.Reach (fun _ _ => True) (fresh mount) c)
    (hstep : c.step l = some (e, c')) (ino : Nat) :
    ∃ (kept : Nat → Bool) (new : List Nat),
      c'.state.inner.childrenOf ino = (c.state.inner.childrenOf ino).filter kept ++ new ∧
      ∀ k ∈ c.state.inner.childrenOf ino, kept k = false → DropsChild c.state e ino k := by
  have hadded : ∀ new, c'.state.inner.childrenOf ino = c.state.inner.childrenOf ino ++ new →
      ∃ (kept : Nat → Bool) (new : List Nat),
        c'.state.inner.childrenOf ino = (c.state.inner.childrenOf ino).filter kept ++ new ∧
        ∀ k ∈ c.state.inner.childrenOf ino, kept k = false → DropsChild c.state e ino k := by
    intro new hnew
    refine ⟨fun _ => true, new, by simpa using hnew, ?_⟩
    intro k _ hgone
    cases hgone
  have hsame : c'.state.inner = c.state.inner → c'.state.inner.childrenOf ino =
      c.state.inner.childrenOf ino ++ [] := by
    intro heq
    rw [heq, List.append_nil]
  obtain ⟨ws, hA, hI⟩ := table_sound.reach new_inv (h.mono served_any)
  rcases Config.step_state hstep with hstate | ⟨t, o, ch, r, rfl, hex⟩ | ⟨t, rfl, hstate⟩
  · exact hadded [] (hsame (congrArg State.inner hstate))
  · have hnext : (exec mount o ch c.state).2.inner = c'.state.inner :=
      congrArg (fun x => x.2.inner) (Option.some.inj hex)
    obtain ⟨th, v, -, hv, -, hpre⟩ := hA.pre_of_step hstep
    cases o with
    | applyListing d strip listing =>
        obtain ⟨⟨path, hmem, -⟩, -⟩ := hpre
        obtain ⟨n, hn, -⟩ := hI.knows t v hv _ hmem
        obtain ⟨kept, new, hkept, hdrops⟩ := Inner.childrenOf_applyListing mount hI.wf
          (hI.wf.fresh hn) strip listing ch.now ino
        refine ⟨kept, new, ?_, ?_⟩
        · rw [← hnext]
          exact hkept
        · intro k hk hgone
          exact ⟨t, d, strip, listing, ch, rfl, hdrops k hk hgone⟩
    | insertFound parent name blob info =>
        obtain ⟨path, hmem, -⟩ := hpre
        obtain ⟨n, hn, -⟩ := hI.knows t v hv _ hmem
        obtain ⟨new, hnew⟩ := Inner.childrenOf_upsertFile mount hI.wf (hI.wf.fresh hn) ino name
          blob info.contentLength info.etag (ch.now 0)
        apply hadded new
        rw [← hnext]
        exact hnew
    | _ => exact hadded [] (hsame hnext.symm)
  · exact hadded [] (hsame (congrArg State.inner hstate))

/-- An undisturbed reading keeps what it has returned at the start of the entries. -/
theorem prefix_step (h : Config.Reach (fun _ _ => True) (fresh mount) c)
    (hstep : c.step l = some (e, c')) {n : Node} (hino : c.state.inner.byIno.get? ino = some n)
    {got : List DirEntry} (hgot : got <+: c.state.inner.entries ino)
    (hcond : Undisturbed ino got.length c.state e) : got <+: c'.state.inner.entries ino := by
  obtain ⟨kept, new, hchildren, hdrops⟩ := step_children h hstep ino
  have hwf := reach_wf (h.mono served_any)
  have hext := step_extends (h.mono served_any) hstep
  apply Inner.prefix_entries hwf hext hino hchildren hgot
  intro entry hentry
  obtain ⟨hchild, m, hm, hname⟩ := Inner.mem_entries ((hgot.drop 2).subset hentry)
  by_contra hgone
  rw [Bool.not_eq_true] at hgone
  obtain ⟨t, d, strip, listing, ch, rfl, ⟨hd, k, hk, hnot⟩ | ⟨hd, k, hk, hnot⟩⟩ :=
    hdrops entry.ino hchild hgone
  · -- the child would be left out by a listing of the directory
    rw [hm] at hk
    cases hk
    apply hnot
    apply hcond.1 hd
    rw [← Inner.names_of_prefix hgot, hname]
    exact List.mem_map_of_mem hentry
  · -- the directory would be left out by a listing of its parent
    exact hnot (hcond.2 hd k hk)

/-- A child that every listing names stays a child. -/
theorem child_step (h : Config.Reach (fun _ _ => True) (fresh mount) c)
    (hstep : c.step l = some (e, c')) {off : Nat} {name : String}
    (hchild : name ∈ c.state.inner.childNames ino) (hcond : Undisturbed ino off c.state e)
    (hnames : Names ino name e) : name ∈ c'.state.inner.childNames ino := by
  obtain ⟨kept, new, hchildren, hdrops⟩ := step_children h hstep ino
  have hext := step_extends (h.mono served_any) hstep
  obtain ⟨k, hk, n, hn, hname⟩ := Inner.mem_childNames.mp hchild
  obtain ⟨n', hn', hsame⟩ := hext.node hn
  apply Inner.mem_childNames.mpr
  refine ⟨k, ?_, n', hn', hsame.name.trans hname⟩
  rw [hchildren, List.mem_append, List.mem_filter]
  refine .inl ⟨hk, ?_⟩
  by_contra hgone
  rw [Bool.not_eq_true] at hgone
  obtain ⟨t, d, strip, listing, ch, rfl, ⟨hd, m, hm, hnot⟩ | ⟨hd, m, hm, hnot⟩⟩ :=
    hdrops k hk hgone
  · rw [hn] at hm
    cases hm
    rw [hname] at hnot
    exact hnot (hnames hd)
  · exact hnot (hcond.2 hd m hm)

end Steps

/-! ## Pages -/

/-- What a request has seen of the entries, and that it replies with a page of them. -/
def pages (mount : MountConfig) : Protocol (machine mount) where
  Local := Option (List DirEntry)
  init _ := none
  jobOk _ := True
  pre _ _ := True
  allows _ _ _ := True
  next l o r :=
    match o, r with
    | .entries _, entries => some entries
    | _, _ => l
  spawnPre _ _ := True
  spawned l _ := l
  joined l _ _ := l
  post j v l :=
    match j with
    | .readdir _ offset room =>
        ∀ entries, l = some entries → v = .directory (page entries offset room)
    | _ => True
  dead l := l

/-- Nothing is asked of the other requests. -/
theorem sat_pages {α : Type} (p : FuseM α) (l : Option (List DirEntry)) :
    p.Sat (pages mount) l fun _ _ => True := by
  induction p generalizing l with
  | ret a => trivial
  | op o k ih => exact ⟨trivial, fun r _ => ih r _⟩
  | spawn j k ih => exact ⟨trivial, trivial, fun t => ih _ _⟩
  | join h k ih => exact fun v _ => ih v _

theorem relist_pages (ino : Nat) :
    (relist mount ino).Sat (pages mount) none fun _ l => l = none := by
  refine ⟨trivial, fun found _ => ?_⟩
  cases found with
  | none => rfl
  | some n =>
      refine ⟨trivial, fun answer _ => ?_⟩
      cases answer with
      | none => rfl
      | some listing => exact ⟨trivial, fun _ _ => ⟨trivial, fun _ _ => rfl⟩⟩

theorem ensureDirListed_pages (ino : Nat) :
    (ensureDirListed mount ino).Sat (pages mount) none fun _ l => l = none := by
  refine ⟨trivial, fun found _ => ?_⟩
  cases found with
  | none => rfl
  | some n =>
      obtain ⟨i, parent, name, path, kind⟩ := n
      cases kind with
      | file size etag mtime => rfl
      | dir childrenLoaded =>
          refine ⟨trivial, fun recent _ => ?_⟩
          cases childrenLoaded with
          | false => exact relist_pages ino
          | true =>
              cases recent with
              | false => exact relist_pages ino
              | true => rfl

theorem body_pages (j : Request) :
    (body mount j).Sat (pages mount) none ((pages mount).post j) := by
  cases j with
  | lookup parent name => exact sat_pages _ _
  | getattr ino => exact sat_pages _ _
  | readdir ino offset room =>
      apply (ensureDirListed_pages ino).bind
      rintro listed l rfl
      cases listed with
      | error e =>
          intro entries hnone
          cases hnone
      | ok _ =>
          refine ⟨trivial, fun entries _ => ?_⟩
          rintro _ ⟨⟩
          rfl

theorem pages_sound :
    Sound (pages mount) (fun _ _ => True) fun _ _ => True where
  body j _ := body_pages j
  start _ _ _ _ := ⟨trivial, trivial⟩
  op _ _ _ _ _ := ⟨trivial, trivial⟩
  spawn _ _ _ _ _ _ := trivial
  join _ _ _ _ _ := trivial
  lost _ _ _ _ _ := trivial
  cancel _ _ _ _ := trivial

/-- The entries that thread `t` replies with. -/
def replyOf (c : Config (machine mount)) (t : Nat) : Option (List (DirEntry × Nat)) :=
  match c.threads[t]? with
  | some ⟨_, _, .running (.ret (.directory es))⟩ => some es
  | _ => none

/-- A call of `readdir` at the offset `off` collects the entries of `ino` and replies with
`es`. A vector has less than `2 ^ 63` elements. -/
def Page (ino : Nat) (c c' : Config (machine mount)) (off room : Nat)
    (es : List (DirEntry × Nat)) : Prop :=
  ∃ l t ch, c.step l = some (.op t (.entries ino) ch, c') ∧
    c.job t = some (.readdir ino off room) ∧ replyOf c' t = some es ∧
    (c.state.inner.entries ino).length < 2 ^ 63

theorem Page.eq_page {ino : Nat} {c c' : Config (machine mount)} {off room : Nat}
    {es : List (DirEntry × Nat)} (hreach : Config.Reach (fun _ _ => True) (fresh mount) c)
    (h : Page ino c c' off room es) : es = page (c.state.inner.entries ino) off room := by
  obtain ⟨l, t, ch, hstep, hjob, hreply, -⟩ := h
  obtain ⟨ws, hA, -⟩ := pages_sound.reach trivial hreach
  obtain ⟨th, k, r, hth, hst, hex, hthreads⟩ := Config.step_op hstep
  obtain ⟨v, hv, hok⟩ := hA.thread t th hth
  have hr : r = c.state.inner.entries ino := (congrArg Prod.fst (Option.some.inj hex)).symm
  have hvjob : v.job = .readdir ino off room := by
    rw [Config.job, hth] at hjob
    exact hok.job.symm.trans (Option.some.inj hjob)
  have hk : k r = .ret (.directory es) := by
    unfold replyOf at hreply
    rw [hthreads, List.getElem?_set_self (Config.lt_of_thread hth)] at hreply
    split at hreply
    · rename_i heq
      cases hreply
      exact Status.running.inj (congrArg Thread.status (Option.some.inj heq))
    · cases hreply
  have hsat := hok.status
  rw [hst] at hsat
  have hpost := hsat.2 r trivial
  rw [hk, hvjob] at hpost
  have hdir := hpost r rfl
  rw [hr] at hdir
  exact Reply.directory.inj hdir

/-- The offset to go on from: that of the last entry returned. -/
def resumeAt (off : Nat) (es : List (DirEntry × Nat)) : Nat := (es.getLast?.map Prod.snd).getD off

section Lists

variable {entries : List DirEntry} {off : Nat} (room : Nat)

theorem page_eq (hoff : off < 2 ^ 64) :
    page entries off room = ((entries.zipIdx 1).drop off).take room := by
  have hcast : ((off : Int) % 2 ^ 64).toNat = off := by omega
  rw [page, hcast]

theorem map_fst_page (hoff : off < 2 ^ 64) :
    (page entries off room).map Prod.fst = (entries.drop off).take room := by
  rw [page_eq room hoff, List.map_take, List.map_drop, List.zipIdx_map_fst]

/-- The last offset counts the entries that have been returned. -/
theorem resumeAt_page (hoff : off < 2 ^ 64) :
    resumeAt off (page entries off room) = off + ((entries.drop off).take room).length := by
  let n := ((entries.drop off).take room).length
  have hn : n = min room (entries.length - off) := by
    rw [← List.length_drop]
    exact List.length_take
  have hlen : (page entries off room).length = n := by
    rw [← List.length_map, map_fst_page room hoff]
  have hlast : (page entries off room).getLast? = (page entries off room)[n - 1]? := by
    rw [List.getLast?_eq_getElem?, hlen]
  change resumeAt off (page entries off room) = off + n
  rw [resumeAt, hlast]
  by_cases hzero : n = 0
  · rw [List.getElem?_eq_none (by omega), hzero]
    rfl
  · have hroom : n - 1 < room := by omega
    have hin : off + (n - 1) < entries.length := by omega
    rw [page_eq room hoff, List.getElem?_take_of_lt hroom, List.getElem?_drop,
      List.getElem?_zipIdx, List.getElem?_eq_getElem hin, Option.map_some, Option.map_some,
      Option.getD_some]
    omega

/-- The next piece goes on where the last one ended. -/
theorem append_prefix {got : List DirEntry} (hgot : got <+: entries) :
    got ++ (entries.drop got.length).take room <+: entries := by
  obtain ⟨rest, rfl⟩ := hgot
  rw [List.drop_left]
  exact (List.prefix_append_right_inj got).mpr (List.take_prefix room rest)

end Lists

/-! ## Enumerations -/

/-- A reading of `ino` from its start on: calls of `readdir`, each from the offset where the
last one ended, while the steps in between meet the condition `P`. `got` is what has been
returned. -/
inductive Enumerates (P : Nat → State → Event (machine mount) → Prop) (ino : Nat)
    (c0 : Config (machine mount)) (off0 : Nat) (got0 : List DirEntry) :
    Config (machine mount) → Nat → List DirEntry → Prop where
  | start : Enumerates P ino c0 off0 got0 c0 off0 got0
  | other {c c' : Config (machine mount)} {off : Nat} {got : List DirEntry}
      {l : Label (machine mount)} {e : Event (machine mount)} :
      Enumerates P ino c0 off0 got0 c off got → c.step l = some (e, c') → P off c.state e →
      Enumerates P ino c0 off0 got0 c' off got
  | page {c c' : Config (machine mount)} {off room : Nat} {got : List DirEntry}
      {es : List (DirEntry × Nat)} :
      Enumerates P ino c0 off0 got0 c off got → Page ino c c' off room es →
      Enumerates P ino c0 off0 got0 c' (resumeAt off es) (got ++ es.map Prod.fst)

/-- What has been returned stands at the start of the directory, up to the offset. -/
structure Reading (ino : Nat) (c : Config (machine mount)) (off : Nat) (got : List DirEntry) :
    Prop where
  reach : Config.Reach (fun _ _ => True) (fresh mount) c
  node : ∃ n, c.state.inner.byIno.get? ino = some n
  shown : got <+: c.state.inner.entries ino
  length : got.length = off

namespace Reading

variable {ino : Nat} {c c' : Config (machine mount)} {off room : Nat} {got : List DirEntry}

theorem step (h : Reading ino c off got) {l : Label (machine mount)} {e : Event (machine mount)}
    (hstep : c.step l = some (e, c')) (hcond : Undisturbed ino off c.state e) :
    Reading ino c' off got := by
  obtain ⟨n, hn⟩ := h.node
  obtain ⟨n', hn', -⟩ := (step_extends (h.reach.mono served_any) hstep).node hn
  refine ⟨h.reach.tail hstep trivial, ⟨n', hn'⟩, ?_, h.length⟩
  apply prefix_step h.reach hstep hn h.shown
  rw [h.length]
  exact hcond

/-- What a call returns next. -/
theorem page_eq (h : Reading ino c off got) {es : List (DirEntry × Nat)}
    (hpage : Page ino c c' off room es) :
    es.map Prod.fst = ((c.state.inner.entries ino).drop off).take room ∧
      resumeAt off es = off + (es.map Prod.fst).length := by
  have heq := hpage.eq_page h.reach
  obtain ⟨-, -, -, -, -, -, hlen⟩ := hpage
  have hoff : off < 2 ^ 64 := by
    have hle := h.shown.length_le
    rw [h.length] at hle
    omega
  rw [heq, map_fst_page room hoff]
  exact ⟨rfl, resumeAt_page room hoff⟩

theorem page (h : Reading ino c off got) {es : List (DirEntry × Nat)}
    (hpage : Page ino c c' off room es) :
    Reading ino c' (resumeAt off es) (got ++ es.map Prod.fst) := by
  obtain ⟨hes, hresume⟩ := h.page_eq hpage
  obtain ⟨l, t, ch, hstep, -⟩ := hpage
  have hnext := h.step hstep trivial
  have hsame : c'.state = c.state := by
    obtain ⟨-, -, r, -, -, hex, -⟩ := Config.step_op hstep
    exact (congrArg Prod.snd (Option.some.inj hex)).symm
  refine ⟨hnext.reach, hnext.node, ?_, ?_⟩
  · rw [hsame, hes, ← h.length]
    exact append_prefix room h.shown
  · rw [hresume, List.length_append, h.length]

/-- At the end everything has been returned. -/
theorem complete (h : Reading ino c off got) (hend : Page ino c c' off room [])
    (hroom : 0 < room) : got = c.state.inner.entries ino := by
  obtain ⟨hes, -⟩ := h.page_eq hend
  have hnone : ((c.state.inner.entries ino).drop off).take room = [] := hes.symm
  rw [List.take_eq_nil_iff, List.drop_eq_nil_iff] at hnone
  have hle := hnone.resolve_left (Nat.ne_of_gt hroom)
  apply h.shown.eq_of_length_le
  rw [h.length]
  exact hle

end Reading

/-- A reading that is not disturbed goes along the directory. -/
theorem Enumerates.reading {P : Nat → State → Event (machine mount) → Prop} {ino : Nat}
    {c0 c : Config (machine mount)} {off0 off : Nat} {got0 got : List DirEntry}
    (hP : ∀ off s e, P off s e → Undisturbed ino off s e)
    (h : Enumerates P ino c0 off0 got0 c off got) (h0 : Reading ino c0 off0 got0) :
    Reading ino c off got := by
  induction h with
  | start => exact h0
  | other _ hstep hcond ih => exact ih.step hstep (hP _ _ _ hcond)
  | page _ hpage ih => exact ih.page hpage

/-- A child that every listing names is there as long as the reading goes on. -/
theorem Enumerates.child {ino : Nat} {name : String} {c0 c : Config (machine mount)}
    {off0 off : Nat} {got0 got : List DirEntry}
    (h : Enumerates (fun off s e => Undisturbed ino off s e ∧ Names ino name e) ino
      c0 off0 got0 c off got) (h0 : Reading ino c0 off0 got0)
    (hchild : name ∈ c0.state.inner.childNames ino) : name ∈ c.state.inner.childNames ino := by
  induction h with
  | start => exact hchild
  | other hbefore hstep hcond ih =>
      have hreading := hbefore.reading (fun _ _ _ hboth => hboth.1) h0
      exact child_step hreading.reach hstep ih hcond.1 hcond.2
  | @page c c' off room got es hbefore hpage ih =>
      have hreading := hbefore.reading (fun _ _ _ hboth => hboth.1) h0
      obtain ⟨l, t, ch, hstep, -⟩ := hpage
      have hcond : Undisturbed ino off c.state (.op t (.entries ino) ch) := trivial
      exact child_step hreading.reach hstep ih hcond trivial

/-- A reading that is not disturbed returns every child that is there at some time, and that
every later listing names, exactly once before its end, which is a call with room that
returns nothing. The first two entries are `.` and `..`. -/
theorem enumeration_returns_once {ino : Nat} {n : Node} {name : String}
    {c0 c1 c2 c3 : Config (machine mount)} {off1 off2 room : Nat} {got1 got2 : List DirEntry}
    (hreach : Config.Reach (fun _ _ => True) (fresh mount) c0)
    (hino : c0.state.inner.byIno.get? ino = some n)
    (hfirst : Enumerates (Undisturbed ino) ino c0 0 [] c1 off1 got1)
    (hchild : name ∈ c1.state.inner.childNames ino)
    (hrest : Enumerates (fun off s e => Undisturbed ino off s e ∧ Names ino name e) ino
      c1 off1 got1 c2 off2 got2)
    (hend : Page ino c2 c3 off2 room []) (hroom : 0 < room) :
    ((got2.drop 2).map DirEntry.name).count name = 1 := by
  have hstart : Reading ino c0 0 [] := ⟨hreach, ⟨n, hino⟩, List.nil_prefix, rfl⟩
  have hmid := hfirst.reading (fun _ _ _ hcond => hcond) hstart
  have hlast := hrest.reading (fun _ _ _ hboth => hboth.1) hmid
  have hall := hlast.complete hend hroom
  have hwf := reach_wf (hlast.reach.mono served_any)
  rw [hall]
  exact List.count_eq_one_of_mem (Inner.entries_names_nodup hwf ino) (hrest.child hmid hchild)

/-! ## Replays -/

/-- The page that a step is, for a reading that has come to `off`. -/
def pageAt (ino off : Nat) (c c' : Config (machine mount)) :
    Event (machine mount) → Option (Nat × List (DirEntry × Nat))
  | .op t (.entries i) _ =>
      match c.job t with
      | some (.readdir _ _ room) =>
          if i = ino ∧ c.job t = some (.readdir ino off room) ∧
              (c.state.inner.entries ino).length < 2 ^ 63 then
            (replyOf c' t).map fun es => (room, es)
          else none
      | _ => none
  | _ => none

theorem page_of_pageAt {ino off room : Nat} {c c' : Config (machine mount)}
    {l : Label (machine mount)} {e : Event (machine mount)} {es : List (DirEntry × Nat)}
    (hstep : c.step l = some (e, c')) (h : pageAt ino off c c' e = some (room, es)) :
    Page ino c c' off room es := by
  unfold pageAt at h
  split at h
  · split at h
    · split at h
      · rename_i hcond
        obtain ⟨rfl, hjob, hlen⟩ := hcond
        obtain ⟨es', hreply, heq⟩ := Option.map_eq_some_iff.mp h
        cases heq
        exact ⟨l, _, _, hstep, hjob, hreply, hlen⟩
      · cases h
    · cases h
  · cases h

/-- A reading along a schedule: the steps that are pages of it are taken for it, the others
have to pass the gate. -/
def enumerate (gate : Nat → State → Event (machine mount) → Bool) (ino : Nat) :
    Config (machine mount) × Nat × List DirEntry → List (Label (machine mount)) →
      Option (Config (machine mount) × Nat × List DirEntry)
  | x, [] => some x
  | (c, off, got), l :: ls =>
      match c.step l with
      | none => none
      | some (e, c') =>
          match pageAt ino off c c' e with
          | some (_, es) => enumerate gate ino (c', resumeAt off es, got ++ es.map Prod.fst) ls
          | none => if gate off c.state e then enumerate gate ino (c', off, got) ls else none

theorem enumerates_of_enumerate {gate : Nat → State → Event (machine mount) → Bool}
    {P : Nat → State → Event (machine mount) → Prop} {ino : Nat}
    (hgate : ∀ off s e, gate off s e = true → P off s e) {c0 c c' : Config (machine mount)}
    {off0 off off' : Nat} {got0 got got' : List DirEntry} {ls : List (Label (machine mount))}
    (h : Enumerates P ino c0 off0 got0 c off got)
    (hrun : enumerate gate ino (c, off, got) ls = some (c', off', got')) :
    Enumerates P ino c0 off0 got0 c' off' got' := by
  induction ls generalizing c off got with
  | nil =>
      cases hrun
      exact h
  | cons l ls ih =>
      simp only [enumerate] at hrun
      split at hrun
      · cases hrun
      · rename_i e next hstep
        split at hrun
        · rename_i room es hpage
          exact ih (h.page (page_of_pageAt hstep hpage)) hrun
        · split at hrun
          · rename_i hpass
            exact ih (h.other hstep (hgate _ _ _ hpass)) hrun
          · cases hrun

/-- The reading is at its end: the next step is a call with room that returns nothing. -/
def endsWith (ino : Nat) (l : Label (machine mount))
    (x : Config (machine mount) × Nat × List DirEntry) : Bool :=
  match x.1.step l with
  | none => false
  | some (e, c') =>
      match pageAt ino x.2.1 x.1 c' e with
      | some (room, es) => decide (0 < room) && es.isEmpty
      | none => false

theorem exists_of_endsWith {ino : Nat} {l : Label (machine mount)}
    {c : Config (machine mount)} {off : Nat} {got : List DirEntry}
    (h : endsWith ino l (c, off, got) = true) :
    ∃ c' room, Page ino c c' off room [] ∧ 0 < room := by
  unfold endsWith at h
  split at h
  · cases h
  · rename_i e c' hstep
    split at h
    · rename_i room es hpage
      rw [Bool.and_eq_true, decide_eq_true_eq, List.isEmpty_iff] at h
      rw [h.2] at hpage
      exact ⟨c', room, page_of_pageAt hstep hpage, h.1⟩
    · cases h

/-- A schedule of a reading of the root, from a state in which `name` is a child. -/
theorem exists_enumeration {P : Nat → State → Event (machine sampleMount) → Prop}
    {gate : Nat → State → Event (machine sampleMount) → Bool}
    (hgate : ∀ off s e, gate off s e = true → P off s e) (name : String) (count : Nat)
    (before during : List (Label (machine sampleMount))) (last : Label (machine sampleMount))
    (h : (Config.replay (fun _ _ => true) (fresh sampleMount) before).any (fun c0 =>
      (c0.state.inner.byIno.get? rootIno).isSome &&
        decide (name ∈ c0.state.inner.childNames rootIno) &&
        (enumerate gate rootIno (c0, 0, []) during).any fun x => endsWith rootIno last x &&
          decide (((x.2.2.drop 2).map DirEntry.name).count name = count)) = true) :
    ∃ c0 c c' : Config (machine sampleMount), ∃ n off room got,
      Config.Reach (fun _ _ => True) (fresh sampleMount) c0 ∧
      c0.state.inner.byIno.get? rootIno = some n ∧ name ∈ c0.state.inner.childNames rootIno ∧
      Enumerates P rootIno c0 0 [] c off got ∧ Page rootIno c c' off room [] ∧ 0 < room ∧
      ((got.drop 2).map DirEntry.name).count name = count := by
  obtain ⟨c0, hreach, hc0⟩ := Config.reach_of_labels (fresh sampleMount) before _ h
  rw [Bool.and_eq_true, Bool.and_eq_true, decide_eq_true_eq] at hc0
  obtain ⟨⟨hsome, hchild⟩, hmore⟩ := hc0
  obtain ⟨n, hn⟩ := Option.isSome_iff_exists.mp hsome
  obtain ⟨⟨c, off, got⟩, hrun, hend⟩ := (Option.any_eq_true _ _).mp hmore
  rw [Bool.and_eq_true, decide_eq_true_eq] at hend
  obtain ⟨c', room, hpage, hroom⟩ := exists_of_endsWith hend.1
  exact ⟨c0, c, c', n, off, room, got, hreach, hn, hchild,
    enumerates_of_enumerate hgate .start hrun, hpage, hroom, hend.2⟩

/-- A call of `readdir` by thread `t` while the listing is recent, up to the entries. -/
def recentCall (t off room : Nat) : List (Label (machine sampleMount)) :=
  [.start (.readdir rootIno off room), .run t .idle, .run t .idle]

/-- A call of `readdir` that brings a listing, with its reply. -/
def relistCall (t off room : Nat) (listing : Listing) : List (Label (machine sampleMount)) :=
  [.start (.readdir rootIno off room), .run t .idle, .run t { Choice.idle with instant := 60000 },
    .run t .idle, .run t (.listed listing), .run t .idle, .run t .idle, .run t .idle]

/-- Files of the root. -/
def filesListed (names : List String) : Listing := ⟨names.map fun name => ⟨name, 5, none⟩, []⟩

/-- The root is listed with three files. The first page is `.`, `..` and one of them; then a
listing comes, and the second page has room for everything else. -/
def twoPages (listing : Listing) (off : Nat) : List (Label (machine sampleMount)) :=
  recentCall 1 0 3 ++ [.run 1 .idle] ++ relistCall 2 3 100 listing ++ recentCall 3 off 100

def threeListed : List (Label (machine sampleMount)) :=
  listingRun rootIno 0 (filesListed ["models/a", "models/b", "models/c"])

def namesGate (ino : Nat) (name : String) : Event (machine sampleMount) → Bool
  | .op _ (.applyListing d strip listing) _ => d != ino || name ∈ listing.names strip
  | _ => true

theorem names_of_gate {ino : Nat} {name : String} {e : Event (machine sampleMount)}
    (h : namesGate ino name e = true) : Names ino name e := by
  cases e with
  | op t o ch =>
      cases o with
      | applyListing d strip listing =>
          intro hd
          rw [namesGate, hd, bne_self_eq_false, Bool.false_or, decide_eq_true_eq] at h
          exact h
      | _ => trivial
  | _ => trivial

/-- Only the directory itself is listed, and with what has been returned of it. -/
def calmGate (ino off : Nat) (s : State) : Event (machine sampleMount) → Bool
  | .op _ (.applyListing d strip listing) _ => decide (ino ∉ s.inner.childrenOf d) &&
      ((s.inner.childNames ino).take (off - 2)).all (· ∈ listing.names strip)
  | _ => true

theorem undisturbed_of_gate {ino off : Nat} {s : State} {e : Event (machine sampleMount)}
    (h : calmGate ino off s e = true) : Undisturbed ino off s e := by
  cases e with
  | op t o ch =>
      cases o with
      | applyListing d strip listing =>
          rw [calmGate, Bool.and_eq_true, decide_eq_true_eq, List.all_eq_true] at h
          constructor
          · intro _ child hchild
            exact of_decide_eq_true (h.2 child hchild)
          · intro hmem
            exact absurd hmem h.1
      | _ => trivial
  | _ => trivial

/-- Both gates at once. -/
theorem calm_of_gates (ino : Nat) (name : String) (off : Nat) (s : State)
    (e : Event (machine sampleMount)) (h : (calmGate ino off s e && namesGate ino name e) = true) :
    Undisturbed ino off s e ∧ Names ino name e := by
  rw [Bool.and_eq_true] at h
  exact ⟨undisturbed_of_gate h.1, names_of_gate h.2⟩

/-- The listing between the pages adds a file. -/
theorem enumeration_returns_once_of_added :
    ∃ c0 c c' : Config (machine sampleMount), ∃ off room got,
      Config.Reach (fun _ _ => True) (fresh sampleMount) c0 ∧
      "b" ∈ c0.state.inner.childNames rootIno ∧
      Enumerates (fun off s e => Undisturbed rootIno off s e ∧ Names rootIno "b" e) rootIno
        c0 0 [] c off got ∧
      Page rootIno c c' off room [] ∧ ((got.drop 2).map DirEntry.name).count "b" = 1 := by
  obtain ⟨c0, c, c', n, off, room, got, hreach, hn, hchild, hrun, hend, hroom, -⟩ :=
    exists_enumeration (calm_of_gates rootIno "b") "b" 1 threeListed
      (twoPages (filesListed ["models/a", "models/b", "models/c", "models/d"]) 6) (.run 3 .idle)
      (by decide +kernel)
  exact ⟨c0, c, c', off, room, got, hreach, hchild, hrun, hend,
    enumeration_returns_once hreach hn .start hchild hrun hend hroom⟩

/-- The listing between the pages leaves out the file that was returned. Then the next one,
which all listings name, is not returned. -/
theorem enumeration_skips_child :
    ∃ c0 c c' : Config (machine sampleMount), ∃ n off room got,
      Config.Reach (fun _ _ => True) (fresh sampleMount) c0 ∧
      c0.state.inner.byIno.get? rootIno = some n ∧ "b" ∈ c0.state.inner.childNames rootIno ∧
      Enumerates (fun _ _ e => Names rootIno "b" e) rootIno c0 0 [] c off got ∧
      Page rootIno c c' off room [] ∧ 0 < room ∧
      ((got.drop 2).map DirEntry.name).count "b" = 0 :=
  exists_enumeration (fun _ _ e (h : namesGate rootIno "b" e = true) => names_of_gate h) "b" 0
    threeListed (twoPages (filesListed ["models/b", "models/c"]) 4) (.run 3 .idle)
    (by decide +kernel)

end BlobCache.Fuse
