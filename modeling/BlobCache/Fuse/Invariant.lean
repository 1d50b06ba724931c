import BlobCache.Fuse.Inodes

/-!
What every update of the inode table keeps. Nodes are never taken out and keep
their place (`Extends`), and the three maps agree on the names of children
(`Wf`). Names may lose their entries and come back with another inode; the
invariant only speaks about the entries that are there.
-/

namespace BlobCache.Fuse

namespace Inner

/-! ## The maps after an update -/

section Maps

variable (g : Inner) (parent ino : Nat) (name fullPath : String) (kind : NodeKind)

theorem byIno_addNode (i : Nat) : (g.addNode parent name fullPath kind).byIno.get? i =
    if i = g.nextIno then some ⟨g.nextIno, parent, name, fullPath, kind⟩ else g.byIno.get? i :=
  Table.get?_insert g.byIno _ i

theorem byParentName_addNode (e : Nat × String) :
    (g.addNode parent name fullPath kind).byParentName.get? e =
      if e = (parent, name) then some g.nextIno else g.byParentName.get? e :=
  FinMap.get?_insert g.byParentName _ e _

theorem childrenOf_addNode (p : Nat) : (g.addNode parent name fullPath kind).childrenOf p =
    if p = parent then g.childrenOf p ++ [g.nextIno] else g.childrenOf p := by
  simp only [childrenOf, addNode, FinMap.get?_insert]
  split
  · rename_i hp
    rw [hp]
    rfl
  · rfl

@[simp] theorem childrenOf_openDir (p : Nat) : (g.openDir ino).childrenOf p = g.childrenOf p := by
  simp only [childrenOf, openDir, FinMap.get?_insert]
  split
  · rename_i hp
    rw [hp]
    rfl
  · rfl

theorem byIno_setKind {g : Inner} {n : Node} {i : Nat} (h : g.byIno.get? i = some n) (j : Nat) :
    (g.setKind n kind).byIno.get? j =
      if j = i then some { n with kind := kind } else g.byIno.get? j := by
  have hino : n.ino = i := g.byIno.keyed i n h
  have hget := Table.get?_insert g.byIno { n with kind := kind } j
  rw [← hino]
  exact hget

variable (rs : List (String × Nat))

@[simp] theorem byIno_removeAll : (rs.foldl (removeChild ino) g).byIno = g.byIno := by
  induction rs generalizing g with
  | nil => rfl
  | cons e rs ih => exact ih (g.removeChild ino e)

@[simp] theorem nextIno_removeAll : (rs.foldl (removeChild ino) g).nextIno = g.nextIno := by
  induction rs generalizing g with
  | nil => rfl
  | cons e rs ih => exact ih (g.removeChild ino e)

theorem byParentName_removeAll (p : Nat) (n : String) :
    (rs.foldl (removeChild ino) g).byParentName.get? (p, n) =
      if p = ino ∧ n ∈ rs.map Prod.fst then none else g.byParentName.get? (p, n) := by
  induction rs generalizing g with
  | nil => simp
  | cons e rs ih =>
      rw [List.foldl_cons, ih, removeChild, FinMap.get?_erase]
      by_cases hp : p = ino
      · by_cases hrs : n ∈ rs.map Prod.fst
        · simp [hp, hrs]
        · by_cases hn : n = e.1
          · simp [hp, hn]
          · simp [hp, hn, hrs]
      · simp [hp]

theorem childrenOf_removeChild (e : String × Nat) (p : Nat) :
    (g.removeChild ino e).childrenOf p =
      if p = e.2 then [] else if p = ino then (g.childrenOf p).filter (· ≠ e.2)
        else g.childrenOf p := by
  by_cases he : p = e.2
  · simp [childrenOf, removeChild, he]
  · simp only [childrenOf, removeChild, FinMap.get?_erase, he, if_false]
    by_cases hp : p = ino
    · subst hp
      cases hkids : g.children.get? p with
      | none => simp [hkids]
      | some kids => simp
    · cases hkids : g.children.get? ino with
      | none => simp [hp]
      | some kids => simp [FinMap.get?_insert, hp]

theorem childrenOf_removeAll (p : Nat) : (rs.foldl (removeChild ino) g).childrenOf p =
    if p ∈ rs.map Prod.snd then []
    else if p = ino then (g.childrenOf p).filter (· ∉ rs.map Prod.snd)
    else g.childrenOf p := by
  induction rs generalizing g with
  | nil => simp
  | cons e rs ih =>
      rw [List.foldl_cons, ih, childrenOf_removeChild]
      by_cases he : p = e.2
      · simp [he]
      · by_cases hrs : p ∈ rs.map Prod.snd
        · simp [hrs]
        · by_cases hp : p = ino
          · subst hp
            simp only [List.map_cons, List.mem_cons, he, hrs, or_self, if_false, if_true,
              List.filter_filter]
            congr 1
            funext k
            by_cases hk : k = e.2
            · simp [hk]
            · simp [hk]
          · simp [he, hrs, hp]

end Maps

/-- A rule for the loops: what a round of either keeps is kept by both. -/
theorem scan_induction {P : Inner → Prop} {mount : MountConfig} {ino : Nat} {strip : String}
    {listing : Listing} {now : Nat → Nat} {g : Inner}
    (hdir : ∀ g p, P g → p ∈ listing.prefixes → dirRel strip p ≠ "" →
      P (g.upsertDir mount ino (dirRel strip p) p))
    (hfile : ∀ g (b : ListedBlob) rel mtime, P g → b ∈ listing.blobs →
      fileRel strip b.name = some rel →
      P (g.upsertFile mount ino rel b.name b.contentLength b.etag mtime)) (h0 : P g) :
    P (scan mount ino strip listing now g).inner := by
  have hname : ∀ (sc : Scan) rel upsert, P sc.inner → (∀ g, P g → P (upsert g)) →
      P (sc.nameRound ino rel upsert).inner := by
    intro sc rel upsert hsc hupsert
    unfold Scan.nameRound
    split
    · exact hsc
    · exact hupsert _ hsc
  have hdirs : P (listing.prefixes.foldl (Scan.prefixRound mount ino strip) ⟨g, []⟩).inner := by
    refine List.foldlRecOn (motive := fun sc : Scan => P sc.inner) _ _ h0 ?_
    intro sc hsc p hp
    simp only [Scan.prefixRound]
    split
    · exact hsc
    · rename_i hne
      have hrel : dirRel strip p ≠ "" := fun heq => hne (String.isEmpty_iff.mpr heq)
      exact hname sc _ _ hsc fun g hg => hdir g p hg hp hrel
  refine List.foldlRecOn (motive := fun sc : Scan => P sc.inner) _ _ hdirs ?_
  intro sc hsc b hb
  obtain ⟨⟨b, i⟩, hmem, rfl⟩ := List.mem_map.mp hb
  have hlisted : b ∈ listing.blobs := List.fst_mem_of_mem_zipIdx hmem
  unfold Scan.blobRound
  split
  · exact hsc
  · rename_i rel hrel
    exact hname sc _ _ hsc fun g hg => hfile g b rel _ hg hlisted hrel

/-- A rule for updates: what a round of either loop, the deletion and the mark
keep is kept by the update. -/
theorem applyListing_induction {P : Inner → Prop} {mount : MountConfig} {ino : Nat}
    {strip : String} {listing : Listing} {now : Nat → Nat} {g : Inner}
    (hdir : ∀ g p, P g → p ∈ listing.prefixes → dirRel strip p ≠ "" →
      P (g.upsertDir mount ino (dirRel strip p) p))
    (hfile : ∀ g (b : ListedBlob) rel mtime, P g → b ∈ listing.blobs →
      fileRel strip b.name = some rel →
      P (g.upsertFile mount ino rel b.name b.contentLength b.etag mtime))
    (hremove : ∀ g seen, P g → P ((g.toRemove ino seen).foldl (removeChild ino) g))
    (hload : ∀ g, P g → P (g.markLoaded ino)) (h0 : P g) :
    P (g.applyListing mount ino strip listing now) :=
  hload _ (hremove _ _ (scan_induction hdir hfile h0))

/-! ## Nodes stay -/

/-- The same place in the tree. -/
structure SamePlace (n n' : Node) : Prop where
  parent : n'.parent = n.parent
  name : n'.name = n.name
  fullPath : n'.fullPath = n.fullPath
  isDir : n'.kind.isDir = n.kind.isDir

structure Extends (g g' : Inner) : Prop where
  nextIno : g.nextIno ≤ g'.nextIno
  node : ∀ {i n}, g.byIno.get? i = some n →
    ∃ n', g'.byIno.get? i = some n' ∧ SamePlace n n'

theorem Extends.refl (g : Inner) : g.Extends g :=
  ⟨Nat.le_refl _, fun h => ⟨_, h, rfl, rfl, rfl, rfl⟩⟩

theorem Extends.trans {g g' g'' : Inner} (h : g.Extends g') (h' : g'.Extends g'') :
    g.Extends g'' := by
  constructor
  · exact Nat.le_trans h.nextIno h'.nextIno
  · intro i n hn
    obtain ⟨n', hn', hsame⟩ := h.node hn
    obtain ⟨n'', hn'', hsame'⟩ := h'.node hn'
    exact ⟨n'', hn'', hsame'.parent.trans hsame.parent, hsame'.name.trans hsame.name,
      hsame'.fullPath.trans hsame.fullPath, hsame'.isDir.trans hsame.isDir⟩

theorem extends_setKind {g : Inner} {n : Node} {i : Nat} {kind : NodeKind}
    (hn : g.byIno.get? i = some n) (hkind : kind.isDir = n.kind.isDir) :
    g.Extends (g.setKind n kind) := by
  constructor
  · exact Nat.le_refl _
  · intro j m hm
    rw [byIno_setKind kind hn]
    split
    · rename_i hj
      rw [hj, hn] at hm
      cases hm
      exact ⟨_, rfl, rfl, rfl, rfl, hkind⟩
    · exact ⟨m, hm, rfl, rfl, rfl, rfl⟩

/-! ## The maps agree -/

structure Wf (g : Inner) : Prop where
  fresh : ∀ {i n}, g.byIno.get? i = some n → i < g.nextIno
  named : ∀ {p name i}, g.byParentName.get? (p, name) = some i →
    ∃ n, g.byIno.get? i = some n ∧ n.parent = p ∧ n.name = name
  linked : ∀ {p k}, k ∈ g.childrenOf p →
    ∃ n, g.byIno.get? k = some n ∧ g.byParentName.get? (p, n.name) = some k
  nodup : ∀ p, (g.childrenOf p).Nodup
  below : ∀ {p name i}, g.byParentName.get? (p, name) = some i → p < i

namespace Wf

variable {g : Inner} {ino : Nat}

theorem child_lt (h : g.Wf) {p k : Nat} (hk : k ∈ g.childrenOf p) : p < k := by
  obtain ⟨n, -, hname⟩ := h.linked hk
  exact h.below hname

theorem child_fresh (h : g.Wf) {p k : Nat} (hk : k ∈ g.childrenOf p) : k < g.nextIno := by
  obtain ⟨n, hn, -⟩ := h.linked hk
  exact h.fresh hn

theorem name_fresh (h : g.Wf) {p i : Nat} {name : String}
    (hi : g.byParentName.get? (p, name) = some i) : i < g.nextIno := by
  obtain ⟨n, hn, -⟩ := h.named hi
  exact h.fresh hn

theorem node_ne_next (h : g.Wf) {i : Nat} {n : Node} (hn : g.byIno.get? i = some n) :
    i ≠ g.nextIno :=
  Nat.ne_of_lt (h.fresh hn)

/-- A child is told from the other children by its name. -/
theorem child_of_name (h : g.Wf) {p k : Nat} {n : Node} {name : String} {i : Nat}
    (hk : k ∈ g.childrenOf p) (hn : g.byIno.get? k = some n) (hname : n.name = name)
    (hi : g.byParentName.get? (p, name) = some i) : k = i := by
  obtain ⟨m, hm, hk'⟩ := h.linked hk
  rw [hn] at hm
  cases hm
  rw [hname, hi] at hk'
  exact (Option.some.inj hk').symm

theorem addNode (h : g.Wf) {name fullPath : String} {kind : NodeKind} (hino : ino < g.nextIno)
    (hnone : g.byParentName.get? (ino, name) = none) :
    (g.addNode ino name fullPath kind).Wf := by
  have hkeep : ∀ {i n}, g.byIno.get? i = some n →
      (g.addNode ino name fullPath kind).byIno.get? i = some n := by
    intro i n hn
    rw [byIno_addNode, if_neg (h.node_ne_next hn)]
    exact hn
  have hnew : (g.addNode ino name fullPath kind).byIno.get? g.nextIno =
      some ⟨g.nextIno, ino, name, fullPath, kind⟩ := by
    rw [byIno_addNode, if_pos rfl]
  constructor
  case fresh =>
    intro i n hn
    change i < g.nextIno + 1
    rw [byIno_addNode] at hn
    split at hn
    · omega
    · have := h.fresh hn
      omega
  case named =>
    intro p nm i hi
    rw [byParentName_addNode] at hi
    split at hi
    · rename_i heq
      cases heq
      cases hi
      exact ⟨_, hnew, rfl, rfl⟩
    · obtain ⟨n, hn, hp⟩ := h.named hi
      exact ⟨n, hkeep hn, hp⟩
  case linked =>
    intro p k hk
    have hold : k ∈ g.childrenOf p → ∃ n, (g.addNode ino name fullPath kind).byIno.get? k =
        some n ∧ (g.addNode ino name fullPath kind).byParentName.get? (p, n.name) = some k := by
      intro hk
      obtain ⟨n, hn, hname⟩ := h.linked hk
      refine ⟨n, hkeep hn, ?_⟩
      rw [byParentName_addNode, if_neg, hname]
      intro heq
      rw [heq, hnone] at hname
      cases hname
    rw [childrenOf_addNode] at hk
    split at hk
    · rename_i hp
      rcases List.mem_append.mp hk with hk | hk
      · exact hold hk
      · obtain rfl := List.mem_singleton.mp hk
        refine ⟨_, hnew, ?_⟩
        rw [byParentName_addNode, hp, if_pos rfl]
    · exact hold hk
  case nodup =>
    intro p
    rw [childrenOf_addNode]
    split
    · rw [List.nodup_append]
      refine ⟨h.nodup p, List.nodup_singleton _, ?_⟩
      intro k hk k' hk' heq
      have := h.child_fresh hk
      have := List.mem_singleton.mp hk'
      omega
    · exact h.nodup p
  case below =>
    intro p nm i hi
    rw [byParentName_addNode] at hi
    split at hi
    · rename_i heq
      cases heq
      cases hi
      exact hino
    · exact h.below hi

theorem openDir (h : g.Wf) (i : Nat) : (g.openDir i).Wf where
  fresh := h.fresh
  named := h.named
  linked hk := h.linked (by rwa [childrenOf_openDir] at hk)
  nodup p := by
    rw [childrenOf_openDir]
    exact h.nodup p
  below := h.below

theorem setKind (h : g.Wf) {n : Node} {i : Nat} (hn : g.byIno.get? i = some n)
    (kind : NodeKind) : (g.setKind n kind).Wf := by
  have hkeep : ∀ {j m}, g.byIno.get? j = some m → ∃ m',
      (g.setKind n kind).byIno.get? j = some m' ∧ m'.parent = m.parent ∧ m'.name = m.name := by
    intro j m hm
    rw [byIno_setKind kind hn]
    split
    · rename_i hj
      rw [hj, hn] at hm
      cases hm
      exact ⟨_, rfl, rfl, rfl⟩
    · exact ⟨m, hm, rfl, rfl⟩
  constructor
  case fresh =>
    intro j m hm
    rw [byIno_setKind kind hn] at hm
    split at hm
    · rename_i hj
      rw [hj]
      exact h.fresh hn
    · exact h.fresh hm
  case named =>
    intro p name j hj
    obtain ⟨m, hm, hp, hname⟩ := h.named hj
    obtain ⟨m', hm', hp', hname'⟩ := hkeep hm
    exact ⟨m', hm', hp'.trans hp, hname'.trans hname⟩
  case linked =>
    intro p k hk
    obtain ⟨m, hm, hname⟩ := h.linked hk
    obtain ⟨m', hm', -, hname'⟩ := hkeep hm
    refine ⟨m', hm', ?_⟩
    rw [hname']
    exact hname
  case nodup => exact h.nodup
  case below => exact h.below

end Wf

theorem mem_toRemove {g : Inner} {ino k : Nat} {seen : List String} {name : String} :
    (name, k) ∈ g.toRemove ino seen ↔
      k ∈ g.childrenOf ino ∧ name ∉ seen ∧ ∃ n, g.byIno.get? k = some n ∧ n.name = name := by
  simp only [toRemove, List.mem_filter, List.mem_filterMap, Option.map_eq_some_iff,
    Prod.mk.injEq, decide_eq_true_eq]
  constructor
  · rintro ⟨⟨j, hj, n, hn, hname, rfl⟩, hseen⟩
    exact ⟨hj, hseen, n, hn, hname⟩
  · rintro ⟨hk, hseen, n, hn, hname⟩
    exact ⟨⟨k, hk, n, hn, hname, rfl⟩, hseen⟩

/-- The child of this name goes away. -/
theorem mem_toRemove_names {g : Inner} {ino : Nat} {seen : List String} {name : String} :
    name ∈ (g.toRemove ino seen).map Prod.fst ↔ name ∉ seen ∧
      ∃ k ∈ g.childrenOf ino, ∃ n, g.byIno.get? k = some n ∧ n.name = name := by
  constructor
  · intro hmem
    obtain ⟨⟨nm, k⟩, hk, rfl⟩ := List.mem_map.mp hmem
    obtain ⟨hchild, hseen, n, hn⟩ := mem_toRemove.mp hk
    exact ⟨hseen, k, hchild, n, hn⟩
  · rintro ⟨hseen, k, hchild, n, hn⟩
    exact List.mem_map.mpr ⟨(name, k), mem_toRemove.mpr ⟨hchild, hseen, n, hn⟩, rfl⟩

theorem mem_toRemove_inos {g : Inner} {ino k : Nat} {seen : List String} {n : Node}
    (hn : g.byIno.get? k = some n) :
    k ∈ (g.toRemove ino seen).map Prod.snd ↔ k ∈ g.childrenOf ino ∧ n.name ∉ seen := by
  constructor
  · intro hmem
    obtain ⟨⟨nm, k⟩, hk, rfl⟩ := List.mem_map.mp hmem
    obtain ⟨hchild, hseen, m, hm, hname⟩ := mem_toRemove.mp hk
    rw [hn] at hm
    cases hm
    rw [hname]
    exact ⟨hchild, hseen⟩
  · rintro ⟨hchild, hseen⟩
    exact List.mem_map.mpr ⟨(n.name, k), mem_toRemove.mpr ⟨hchild, hseen, n, hn, rfl⟩, rfl⟩

namespace Wf

variable {g : Inner} {ino : Nat}

theorem removeAll (h : g.Wf) (seen : List String) :
    ((g.toRemove ino seen).foldl (removeChild ino) g).Wf := by
  have hsub : ∀ {p k}, k ∈ ((g.toRemove ino seen).foldl (removeChild ino) g).childrenOf p →
      k ∈ g.childrenOf p ∧ (p = ino → k ∉ (g.toRemove ino seen).map Prod.snd) := by
    intro p k hk
    rw [childrenOf_removeAll] at hk
    split at hk
    · cases hk
    · split at hk
      · obtain ⟨hmem, hnot⟩ := List.mem_filter.mp hk
        exact ⟨hmem, fun _ => by simpa using hnot⟩
      · rename_i hp
        exact ⟨hk, fun heq => absurd heq hp⟩
  have hnames : ∀ {p name i},
      ((g.toRemove ino seen).foldl (removeChild ino) g).byParentName.get? (p, name) = some i →
      g.byParentName.get? (p, name) = some i := by
    intro p name i hi
    rw [byParentName_removeAll] at hi
    split at hi
    · cases hi
    · exact hi
  constructor
  case fresh =>
    intro i n hn
    rw [byIno_removeAll] at hn
    rw [nextIno_removeAll]
    exact h.fresh hn
  case named =>
    intro p name i hi
    rw [byIno_removeAll]
    exact h.named (hnames hi)
  case linked =>
    intro p k hk
    obtain ⟨hold, hkept⟩ := hsub hk
    obtain ⟨n, hn, hname⟩ := h.linked hold
    rw [byIno_removeAll]
    refine ⟨n, hn, ?_⟩
    rw [byParentName_removeAll, if_neg, hname]
    rintro ⟨rfl, hmem⟩
    -- a removed child of the same name would be this child
    obtain ⟨hseen, -⟩ := mem_toRemove_names.mp hmem
    exact hkept rfl ((mem_toRemove_inos hn).mpr ⟨hold, hseen⟩)
  case nodup =>
    intro p
    rw [childrenOf_removeAll]
    split
    · exact List.nodup_nil
    · split
      · exact (h.nodup p).filter _
      · exact h.nodup p
  case below =>
    intro p name i hi
    exact h.below (hnames hi)

theorem upsertDir (h : g.Wf) (mount : MountConfig) (hino : ino < g.nextIno)
    (name fullBlobPath : String) : (g.upsertDir mount ino name fullBlobPath).Wf := by
  unfold Inner.upsertDir
  split
  · exact h
  · exact (h.addNode hino (by assumption)).openDir _

theorem upsertFile (h : g.Wf) (mount : MountConfig) (hino : ino < g.nextIno)
    (name fullBlobName : String) (size : Nat) (etag : Option String) (mtime : Nat) :
    (g.upsertFile mount ino name fullBlobName size etag mtime).Wf := by
  unfold Inner.upsertFile
  split
  · split
    · rename_i n hn
      split
      · exact h.setKind hn _
      · exact h
    · exact h
  · exact h.addNode hino (by assumption)

theorem markLoaded (h : g.Wf) : (g.markLoaded ino).Wf := by
  unfold Inner.markLoaded
  split
  · rename_i n hn
    split
    · exact h.setKind hn _
    · exact h
  · exact h

end Wf

variable {g : Inner} {ino : Nat} (mount : MountConfig)

theorem extends_addNode (h : g.Wf) (name fullPath : String) (kind : NodeKind) :
    g.Extends (g.addNode ino name fullPath kind) := by
  constructor
  · exact Nat.le_succ _
  · intro i n hn
    rw [byIno_addNode, if_neg (h.node_ne_next hn)]
    exact ⟨n, hn, rfl, rfl, rfl, rfl⟩

theorem extends_upsertDir (h : g.Wf) (name fullBlobPath : String) :
    g.Extends (g.upsertDir mount ino name fullBlobPath) := by
  unfold upsertDir
  split
  · exact .refl g
  · obtain ⟨hnext, hnode⟩ : g.Extends (g.addNode ino name
        ((getFrom (Node.trimEndSlashes fullBlobPath) (stripPrefixLen mount)).getD "")
        (.dir false)) := extends_addNode h _ _ _
    exact ⟨hnext, hnode⟩

/-- An existing name is at most given a new size. -/
theorem upsertFile_known {name : String} {i : Nat} (hi : g.byParentName.get? (ino, name) = some i)
    (fullBlobName : String) (size : Nat) (etag : Option String) (mtime : Nat) :
    (g.upsertFile mount ino name fullBlobName size etag mtime).byParentName = g.byParentName ∧
      (g.upsertFile mount ino name fullBlobName size etag mtime).childrenOf ino =
        g.childrenOf ino := by
  unfold upsertFile
  simp only [hi]
  split
  · split
    · exact ⟨rfl, rfl⟩
    · exact ⟨rfl, rfl⟩
  · exact ⟨rfl, rfl⟩

theorem extends_upsertFile (h : g.Wf) (name fullBlobName : String) (size : Nat)
    (etag : Option String) (mtime : Nat) :
    g.Extends (g.upsertFile mount ino name fullBlobName size etag mtime) := by
  unfold upsertFile
  split
  · split
    · rename_i n hn
      split
      · rename_i hkind
        apply extends_setKind hn
        rw [hkind]
        rfl
      · exact .refl g
    · exact .refl g
  · exact extends_addNode h _ _ _

theorem extends_removeAll (g : Inner) (ino : Nat) (rs : List (String × Nat)) :
    g.Extends (rs.foldl (removeChild ino) g) := by
  constructor
  · rw [nextIno_removeAll]
  · intro i n hn
    rw [byIno_removeAll]
    exact ⟨n, hn, rfl, rfl, rfl, rfl⟩

@[simp] theorem byParentName_markLoaded (g : Inner) (ino : Nat) :
    (g.markLoaded ino).byParentName = g.byParentName := by
  unfold markLoaded
  split
  · split <;> rfl
  · rfl

@[simp] theorem childrenOf_markLoaded (g : Inner) (ino p : Nat) :
    (g.markLoaded ino).childrenOf p = g.childrenOf p := by
  unfold markLoaded
  split
  · split <;> rfl
  · rfl

theorem extends_markLoaded (g : Inner) (ino : Nat) : g.Extends (g.markLoaded ino) := by
  unfold markLoaded
  split
  · rename_i n hn
    split
    · rename_i hdir
      apply extends_setKind hn
      rw [hdir]
      rfl
    · exact .refl g
  · exact .refl g

/-- The update of an existing directory keeps the invariant and the nodes. -/
theorem applyListing_wf (h : g.Wf) (hino : ino < g.nextIno) (strip : String)
    (listing : Listing) (now : Nat → Nat) :
    (g.applyListing mount ino strip listing now).Wf ∧
      g.Extends (g.applyListing mount ino strip listing now) := by
  refine applyListing_induction (P := fun g' => g'.Wf ∧ g.Extends g') ?_ ?_ ?_ ?_ ⟨h, .refl g⟩
  · rintro g' p ⟨hwf, hext⟩ - -
    exact ⟨hwf.upsertDir mount (Nat.lt_of_lt_of_le hino hext.nextIno) _ _,
      hext.trans (extends_upsertDir mount hwf _ _)⟩
  · rintro g' b rel mtime ⟨hwf, hext⟩ - -
    exact ⟨hwf.upsertFile mount (Nat.lt_of_lt_of_le hino hext.nextIno) _ _ _ _ _,
      hext.trans (extends_upsertFile mount hwf _ _ _ _ _)⟩
  · rintro g' seen ⟨hwf, hext⟩
    exact ⟨hwf.removeAll seen, hext.trans (extends_removeAll g' ino _)⟩
  · rintro g' ⟨hwf, hext⟩
    exact ⟨hwf.markLoaded, hext.trans (extends_markLoaded g' ino)⟩

theorem new_wf : new.Wf := by
  have hchildren : ∀ p, new.childrenOf p = [] := by
    intro p
    simp only [childrenOf, new, FinMap.get?_insert, FinMap.get?_empty]
    split <;> rfl
  constructor
  · intro i n hn
    change (Table.empty.insert root).get? i = some n at hn
    rw [Table.get?_insert] at hn
    split at hn
    · rename_i hi
      rw [hi]
      decide
    · cases hn
  · intro p name i hi
    cases hi
  · intro p k hk
    rw [hchildren] at hk
    cases hk
  · intro p
    rw [hchildren]
    exact List.nodup_nil
  · intro p name i hi
    cases hi

end Inner

end BlobCache.Fuse
