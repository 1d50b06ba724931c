import BlobCache.Data.Table
import BlobCache.Paths

/-!
The inode table of `BlobFs`: `Inner` with the functions that change it, which
are `upsert_dir`, `upsert_file` and the part of `ensure_dir_listed` that runs
under the write lock. Log messages are left out.
-/

namespace BlobCache.Fuse

def rootIno : Nat := 1

def maxChildrenPerDir : Nat := 100000

inductive NodeKind where
  | dir (childrenLoaded : Bool)
  | file (size : Nat) (etag : Option String) (mtime : Nat)
  deriving DecidableEq, Repr

def NodeKind.isDir : NodeKind → Bool
  | .dir _ => true
  | .file .. => false

structure Node where
  ino : Nat
  parent : Nat
  name : String
  fullPath : String
  kind : NodeKind
  deriving DecidableEq, Repr

/-- No entry is ever taken out of `by_ino` and a map is smaller than the address
space, so `next_ino` does not come near `2 ^ 64`. -/
structure Inner where
  byIno : Table Node.ino
  byParentName : FinMap (Nat × String) Nat
  children : FinMap Nat (List Nat)
  nextIno : Nat

namespace Inner

def childrenOf (g : Inner) (ino : Nat) : List Nat := (g.children.get? ino).getD []

def root : Node := ⟨rootIno, rootIno, "", "", .dir false⟩

/-- The table of `BlobFs::new`. -/
def new : Inner where
  byIno := Table.empty.insert root
  byParentName := ∅
  children := (∅ : FinMap Nat (List Nat)).insert rootIno []
  nextIno := 2

/-- The last lines of `upsert_file`, which `upsert_dir` repeats. -/
def addNode (g : Inner) (parent : Nat) (name fullPath : String) (kind : NodeKind) : Inner where
  byIno := g.byIno.insert ⟨g.nextIno, parent, name, fullPath, kind⟩
  byParentName := g.byParentName.insert (parent, name) g.nextIno
  children := g.children.insert parent (g.childrenOf parent ++ [g.nextIno])
  nextIno := g.nextIno + 1

/-- `g.children.entry(ino).or_default()`. -/
def openDir (g : Inner) (ino : Nat) : Inner :=
  { g with children := g.children.insert ino (g.childrenOf ino) }

/-- The new kind of a node; its inode number stays. -/
def setKind (g : Inner) (n : Node) (kind : NodeKind) : Inner :=
  { g with byIno := g.byIno.insert { n with kind := kind } }

end Inner

/-! ## Paths -/

/-- The mount's prefix as it is put before the names that are listed. -/
def mountPrefix (mount : MountConfig) : String :=
  if mount.pathPrefix.isEmpty then "" else trimSlashes mount.pathPrefix ++ "/"

/-- The prefix that is listed for the directory with this path. -/
def listPrefix (mount : MountConfig) (fullPath : String) : String :=
  mountPrefix mount ++ if fullPath.isEmpty then "" else fullPath ++ "/"

def stripPrefixLen (mount : MountConfig) : Nat :=
  if mount.pathPrefix.isEmpty then 0 else (trimSlashes mount.pathPrefix).utf8ByteSize + 1

/-- The name of a listed prefix below the directory with the prefix `strip`. -/
def dirRel (strip p : String) : String := Node.trimEndSlashes ((stripPrefix strip p).getD p)

/-- The name of a listed blob; the empty name and names with a slash are passed
over. -/
def fileRel (strip name : String) : Option String :=
  let rel := (stripPrefix strip name).getD name
  if rel.isEmpty || rel.toList.contains '/' then none else some rel

structure ListedBlob where
  name : String
  contentLength : Nat
  etag : Option String
  deriving DecidableEq, Repr

structure Listing where
  blobs : List ListedBlob
  prefixes : List String
  deriving DecidableEq, Repr

/-! ## Updates -/

namespace Inner

variable (mount : MountConfig)

def upsertDir (g : Inner) (parent : Nat) (name fullBlobPath : String) : Inner :=
  match g.byParentName.get? (parent, name) with
  | some _ => g
  | none =>
      let trim := Node.trimEndSlashes fullBlobPath
      let fullPath := (getFrom trim (stripPrefixLen mount)).getD ""
      (g.addNode parent name fullPath (.dir false)).openDir g.nextIno

def upsertFile (g : Inner) (parent : Nat) (name fullBlobName : String) (size : Nat)
    (etag : Option String) (mtime : Nat) : Inner :=
  match g.byParentName.get? (parent, name) with
  | some existing =>
      match g.byIno.get? existing with
      | some n =>
          match n.kind with
          | .file .. => g.setKind n (.file size etag mtime)
          | .dir _ => g
      | none => g
  | none =>
      let fullPath := (getFrom fullBlobName (stripPrefixLen mount)).getD fullBlobName
      g.addNode parent name fullPath (.file size etag mtime)

/-- The table and the set `seen` in the loops of `ensure_dir_listed`. -/
structure Scan where
  inner : Inner
  seen : List String

/-- One round of either loop for the name `rel`. -/
def Scan.nameRound (sc : Scan) (ino : Nat) (rel : String) (upsert : Inner → Inner) : Scan :=
  if maxChildrenPerDir ≤ (sc.inner.childrenOf ino).length ∧
      sc.inner.byParentName.get? (ino, rel) = none then sc
  else ⟨upsert sc.inner, rel :: sc.seen⟩

def Scan.prefixRound (ino : Nat) (strip : String) (sc : Scan) (p : String) : Scan :=
  let rel := dirRel strip p
  if rel.isEmpty then sc
  else sc.nameRound ino rel fun g => g.upsertDir mount ino rel p

/-- `mtime` is what `SystemTime::now()` gives in this round. -/
def Scan.blobRound (ino : Nat) (strip : String) (sc : Scan) (b : ListedBlob × Nat) : Scan :=
  match fileRel strip b.1.name with
  | none => sc
  | some rel =>
      sc.nameRound ino rel fun g =>
        g.upsertFile mount ino rel b.1.name b.1.contentLength b.1.etag b.2

/-- The children that were not listed, with their names. -/
def toRemove (g : Inner) (ino : Nat) (seen : List String) : List (String × Nat) :=
  ((g.childrenOf ino).filterMap fun k => (g.byIno.get? k).map fun n => (n.name, k)).filter
    fun e => e.1 ∉ seen

/-- The entry of `by_ino` is left, as handles may still refer to it. -/
def removeChild (ino : Nat) (g : Inner) (e : String × Nat) : Inner :=
  let children :=
    match g.children.get? ino with
    | some kids => g.children.insert ino (kids.filter (· ≠ e.2))
    | none => g.children
  { g with
    byParentName := g.byParentName.erase (ino, e.1)
    children := children.erase e.2 }

def markLoaded (g : Inner) (ino : Nat) : Inner :=
  match g.byIno.get? ino with
  | some n => if n.kind.isDir then g.setKind n (.dir true) else g
  | none => g

def scan (ino : Nat) (strip : String) (listing : Listing) (now : Nat → Nat) (g : Inner) : Scan :=
  let dirs := listing.prefixes.foldl (Scan.prefixRound mount ino strip) ⟨g, []⟩
  (listing.blobs.zipIdx.map fun b => (b.1, now b.2)).foldl (Scan.blobRound mount ino strip) dirs

/-- What `ensure_dir_listed` does under the write lock. -/
def applyListing (ino : Nat) (strip : String) (listing : Listing) (now : Nat → Nat)
    (g : Inner) : Inner :=
  let sc := scan mount ino strip listing now g
  let kept := (sc.inner.toRemove ino sc.seen).foldl (removeChild ino) sc.inner
  kept.markLoaded ino

end Inner

end BlobCache.Fuse
