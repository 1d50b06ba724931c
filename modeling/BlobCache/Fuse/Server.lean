import BlobCache.Conc.Protocol
import BlobCache.Fuse.Invariant

/-!
`BlobFs` as a server of kernel requests. Each request is a task of its own; a
section under the lock of the inode table is one operation, so that requests
interleave between their sections as they do in the daemon. The blob service
and the clock are the environment. `read` is left out, it does not change the
table; so are the constant fields of the attributes.
-/

namespace BlobCache.Fuse

open Conc

inductive Errno where
  | enoent
  | enotdir
  | eio
  deriving DecidableEq, Repr

inductive FileType where
  | directory
  | regularFile
  deriving DecidableEq, Repr

def NodeKind.fileType : NodeKind → FileType
  | .dir _ => .directory
  | .file .. => .regularFile

structure FileAttr where
  ino : Nat
  size : Nat
  blocks : Nat
  mtime : Nat
  kind : FileType
  perm : Nat
  nlink : Nat
  deriving DecidableEq, Repr

/-- Directories have the epoch as their time. -/
def attrFor (n : Node) : FileAttr :=
  match n.kind with
  | .dir _ => ⟨n.ino, 0, 0, 0, .directory, 0o555, 2⟩
  | .file size _ mtime => ⟨n.ino, size, (size + 511) / 512, mtime, .regularFile, 0o444, 1⟩

structure DirEntry where
  ino : Nat
  kind : FileType
  name : String
  deriving DecidableEq, Repr

/-- The part of `BlobInfo` that `lookup` uses. -/
structure BlobInfo where
  contentLength : Nat
  etag : Option String
  deriving DecidableEq, Repr

/-- What `lookup` sees of the table under its read lock. -/
inductive Found where
  | entry (n : Node)
  | miss (parent : Node)
  | noParent
  deriving DecidableEq, Repr

namespace Inner

def find (g : Inner) (parent : Nat) (name : String) : Found :=
  match (g.byParentName.get? (parent, name)).bind g.byIno.get? with
  | some n => .entry n
  | none =>
      match g.byIno.get? parent with
      | some p => .miss p
      | none => .noParent

/-- The entries that `readdir` collects. -/
def entries (g : Inner) (ino : Nat) : List DirEntry :=
  ⟨ino, .directory, "."⟩ ::
    ⟨((g.byIno.get? ino).map Node.parent).getD rootIno, .directory, ".."⟩ ::
    (g.childrenOf ino).filterMap fun k =>
      (g.byIno.get? k).map fun n => ⟨k, n.kind.fileType, n.name⟩

/-- The section of `lookup` under the write lock. The node is missing when one
of the two unchecked indexings panics. -/
def insertFound (mount : MountConfig) (g : Inner) (parent : Nat) (name candidate : String)
    (info : BlobInfo) (mtime : Nat) : Option Node × Inner :=
  let g' := g.upsertFile mount parent name candidate info.contentLength info.etag mtime
  ((g'.byParentName.get? (parent, name)).bind g'.byIno.get?, g')

end Inner

/-- The blob that `lookup` asks for when the name is not in the table. -/
def candidate (mount : MountConfig) (parentPath name : String) : String :=
  if parentPath.isEmpty then mountPrefix mount ++ name
  else mountPrefix mount ++ parentPath ++ "/" ++ name

/-! ## Operations -/

structure State where
  inner : Inner
  lastListing : FinMap Nat Nat

def State.new : State := ⟨.new, ∅⟩

def listingCacheTtl : Nat := 30000

inductive Op where
  | getNode (ino : Nat)
  | recent (ino : Nat)
  | listBlobs (pre : String)
  | applyListing (ino : Nat) (strip : String) (listing : Listing)
  | stamp (ino : Nat)
  | find (parent : Nat) (name : String)
  | getBlobProperties (blob : String)
  | insertFound (parent : Nat) (name candidate : String) (info : BlobInfo)
  | entries (ino : Nat)

/-- A missing listing or missing properties stand for an error of the service. -/
def Op.Resp : Op → Type
  | .getNode _ => Option Node
  | .recent _ => Bool
  | .listBlobs _ => Option Listing
  | .applyListing .. => Unit
  | .stamp _ => Unit
  | .find .. => Found
  | .getBlobProperties _ => Option BlobInfo
  | .insertFound .. => Option Node
  | .entries _ => List DirEntry

/-- The part of the environment: `now i` is the `i`-th reading of the system
clock in a section, `instant` that of the monotonic clock. -/
structure Choice where
  now : Nat → Nat
  instant : Nat
  listing : Option Listing
  info : Option BlobInfo

/-- `room` is the number of entries that fit into the reply. -/
inductive Request where
  | lookup (parent : Nat) (name : String)
  | getattr (ino : Nat)
  | readdir (ino : Nat) (offset : Int) (room : Nat)
  deriving DecidableEq

/-- The entries of a directory come with the offset to go on from. -/
inductive Reply where
  | entry (attr : FileAttr)
  | attr (attr : FileAttr)
  | directory (entries : List (DirEntry × Nat))
  | error (e : Errno)
  | panicked
  deriving DecidableEq

def effect : Effect := ⟨Op, Op.Resp, Request, Reply⟩

instance : DecidableEq effect.Job := inferInstanceAs (DecidableEq Request)

instance : DecidableEq effect.Val := inferInstanceAs (DecidableEq Reply)

abbrev FuseM := Program effect

section

variable (mount : MountConfig)

def exec (o : Op) (c : Choice) (s : State) : o.Resp × State :=
  match o with
  | .getNode ino => (s.inner.byIno.get? ino, s)
  | .recent ino =>
      (match s.lastListing.get? ino with
        | some t => decide (c.instant - t < listingCacheTtl)
        | none => false, s)
  | .listBlobs _ => (c.listing, s)
  | .applyListing ino strip listing =>
      ((), { s with inner := s.inner.applyListing mount ino strip listing c.now })
  | .stamp ino => ((), { s with lastListing := s.lastListing.insert ino c.instant })
  | .find parent name => (s.inner.find parent name, s)
  | .getBlobProperties _ => (c.info, s)
  | .insertFound parent name candidate info =>
      let (n, inner) := s.inner.insertFound mount parent name candidate info (c.now 0)
      (n, { s with inner := inner })
  | .entries ino => (s.inner.entries ino, s)

/-! ## Requests -/

def perform (o : Op) : FuseM o.Resp := Program.perform (E := effect) o

/-- The second half of `ensure_dir_listed`, when the listing is due. -/
def relist (ino : Nat) : FuseM (Except Errno Unit) := do
  match ← perform (.getNode ino) with
  | none => return .error .enoent
  | some n =>
      let pre := listPrefix mount n.fullPath
      match ← perform (.listBlobs pre) with
      | none => return .error .eio
      | some listing =>
          perform (.applyListing ino pre listing)
          perform (.stamp ino)
          return .ok ()

def ensureDirListed (ino : Nat) : FuseM (Except Errno Unit) := do
  match ← perform (.getNode ino) with
  | none => return .error .enoent
  | some n =>
      match n.kind with
      | .file .. => return .error .enotdir
      | .dir childrenLoaded =>
          let recent : Bool ← perform (.recent ino)
          if childrenLoaded && recent then return .ok () else relist mount ino

def lookup (parent : Nat) (name : String) : FuseM Reply := do
  match ← ensureDirListed mount parent with
  | .error e => return .error e
  | .ok () =>
      match ← perform (.find parent name) with
      | .entry n => return .entry (attrFor n)
      | .noParent => return .error .enoent
      | .miss p =>
          let blob := candidate mount p.fullPath name
          match ← perform (.getBlobProperties blob) with
          | none => return .error .enoent
          | some info =>
              match ← perform (.insertFound parent name blob info) with
              | some n => return .entry (attrFor n)
              | none => return .panicked

def getattr (ino : Nat) : FuseM Reply := do
  match ← perform (.getNode ino) with
  | some n => return .attr (attrFor n)
  | none => return .error .enoent

/-- `skip(offset as usize)`, then entries until the reply is full. -/
def page (entries : List DirEntry) (offset : Int) (room : Nat) : List (DirEntry × Nat) :=
  (((entries.zipIdx 1).drop (offset % 2 ^ 64).toNat).take room)

def readdir (ino : Nat) (offset : Int) (room : Nat) : FuseM Reply := do
  match ← ensureDirListed mount ino with
  | .error e => return .error e
  | .ok () =>
      let entries ← perform (.entries ino)
      return .directory (page entries offset room)

def body : Request → FuseM Reply
  | .lookup parent name => lookup mount parent name
  | .getattr ino => getattr ino
  | .readdir ino offset room => readdir mount ino offset room

/-- The tasks of requests are never aborted. -/
def machine : Machine effect where
  State := State
  Choice := Choice
  exec _ o c s := some (exec mount o c s)
  body := body mount
  external _ := true
  cancellable _ _ := false
  onCancel _ s := s

end

end BlobCache.Fuse
