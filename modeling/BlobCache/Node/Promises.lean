import BlobCache.Conc.Extend
import BlobCache.Node.Walk

/-!
What a thread knows about where chunks are. A chunk is promised to a thread that
saw it in `inflight_writes`, in the peer LRU or in the index, that put it there
itself or that was handed it by the leader of its slot or by a job it awaited.
It is settled once an insert of it is known to be over, in one way or the other,
and it has landed once an insert of it has passed the lock.

Two operations rest on such knowledge: a leader broadcasts only a chunk that is
promised to it, and a task takes a chunk out of `inflight_writes` only when the
insert is over. Everything else only adds to what a thread knows.
-/

namespace BlobCache.Node

open Cache Conc

/-- `slots` are the slots that the thread listens to. `blamed` says that it has
been handed failures of inserts. -/
structure Tally where
  promised : List ChunkKey := []
  slots : List (ChunkKey × Nat) := []
  settled : List ChunkKey := []
  landed : List ChunkKey := []
  blamed : Bool := false

namespace Tally

def promise (l : Tally) (key : ChunkKey) : Tally := { l with promised := key :: l.promised }

/-- The keys of a slot, as far as the thread listens to it. -/
def heard (l : Tally) (i : Nat) : List ChunkKey :=
  l.slots.filterMap fun x => if x.2 = i then some x.1 else none

def disk (l : Tally) : (o : DiskOp) → o.Resp → Tally
  | .containsKey key, true => l.promise key
  | .insertSection key _, _ => { l with landed := key :: l.landed }
  | _, _ => l

def fetch (l : Tally) : (o : FetchOp) → o.Resp → Tally
  | .writesGet key, some _ | .lruGet key, some _ => l.promise key
  | .writesInsert key _, _ | .lruPut key _, _ => l.promise key
  | .inflightEntry key, .follower i => { l with slots := (key, i) :: l.slots }
  | .recv i _, .message (.ok _) => { l with promised := l.heard i ++ l.promised }
  | .recordInsertFailure key _, _ => { l with settled := key :: l.settled }
  | .waitDrained, _ => { l with settled := l.promised ++ l.settled }
  | _, _ => l

def next (l : Tally) : (o : Op) → o.Resp → Tally
  | .disk o, r => l.disk o r
  | .fetch o, r => l.fetch o r
  | .index _, _ | .snapshotKeys, _ => l

end Tally

/-- The chunk that a fetch is for. -/
def Job.chunkKey? : Job → Option ChunkKey
  | .fetchChunk mount blob offset _ | .fetchChunkOriginOnly mount blob offset _
  | .pullChunkFromPeerWait mount blob offset _ _ _ _ _ => some ⟨mount.name, blob, offset⟩
  | _ => none

/-- The chunk that a job promises to whoever waited for its value. -/
def Job.grants : Job → Val → Option ChunkKey
  | .tryGet key, .cached (some _) => some key
  | j, .fetched (.ok _) => j.chunkKey?
  | _, _ => none

/-- The chunk that a job has stored. -/
def Job.inserts : Job → Val → Option ChunkKey
  | .insert key _, .done (.ok _) => some key
  | _, _ => none

def Tally.joined (l : Tally) (j : Job) : Option Val → Tally
  | none => l
  | some v =>
      { l with
        promised := (j.grants v).toList ++ l.promised
        settled := (j.inserts v).toList ++ l.settled }

/-- The knowledge that the two operations rest on. -/
def promisePre (l : Tally) : Op → Prop
  | .fetch (.writesRemove key) => key ∈ l.settled
  | .fetch (.finishLeader key (.ok _)) => key ∈ l.promised
  | _ => True

def promises (cfg : NodeConfig) : Protocol (machine cfg) where
  Local := Tally
  init _ := {}
  jobOk _ := True
  pre := promisePre
  allows _ _ _ := True
  next := Tally.next
  spawnPre _ _ := True
  spawned l _ := l
  joined l h r := l.joined h.job r
  post j v l := (∀ k ∈ j.grants v, k ∈ l.promised) ∧ ∀ k ∈ j.inserts v, k ∈ l.landed
  dead l := l

/-! ## Knowledge grows -/

/-- The thread forgets nothing of what it knows about chunks, and nobody has
handed it failures. -/
structure Tally.Grows (l l' : Tally) : Prop where
  promised : l.promised ⊆ l'.promised
  settled : l.settled ⊆ l'.settled
  landed : l.landed ⊆ l'.landed
  blamed : l'.blamed = l.blamed

namespace Tally.Grows

theorem refl (l : Tally) : l.Grows l :=
  ⟨List.Subset.refl _, List.Subset.refl _, List.Subset.refl _, rfl⟩

theorem trans {l l' l'' : Tally} (h : l.Grows l') (h' : l'.Grows l'') : l.Grows l'' :=
  ⟨List.Subset.trans h.promised h'.promised, List.Subset.trans h.settled h'.settled,
    List.Subset.trans h.landed h'.landed, h'.blamed.trans h.blamed⟩

theorem promise (l : Tally) (key : ChunkKey) : l.Grows (l.promise key) :=
  { refl l with promised := List.subset_cons_self _ _ }

theorem disk (l : Tally) (o : DiskOp) (r : o.Resp) : l.Grows (l.disk o r) := by
  unfold Tally.disk
  split
  · exact promise l _
  · exact { refl l with landed := List.subset_cons_self _ _ }
  · exact refl l

theorem fetch (l : Tally) (o : FetchOp) (r : o.Resp) : l.Grows (l.fetch o r) := by
  unfold Tally.fetch
  split
  · exact promise l _
  · exact promise l _
  · exact promise l _
  · exact promise l _
  · exact { refl l with }
  · exact { refl l with promised := List.subset_append_right _ _ }
  · exact { refl l with settled := List.subset_cons_self _ _ }
  · exact { refl l with settled := List.subset_append_right _ _ }
  · exact refl l

theorem next (l : Tally) (o : Op) (r : o.Resp) : l.Grows (l.next o r) := by
  cases o with
  | disk o => exact disk l o r
  | fetch o => exact fetch l o r
  | index o => exact refl l
  | snapshotKeys => exact refl l

theorem joined (l : Tally) (j : Job) (r : Option Val) : l.Grows (l.joined j r) := by
  cases r with
  | none => exact refl l
  | some v =>
      exact { refl l with
        promised := List.subset_append_right _ _
        settled := List.subset_append_right _ _ }

end Tally.Grows

section Specs

variable {cfg : NodeConfig} {l : Tally} {α β : Type}

/-- The program rests on nothing, whatever its thread knows. -/
def Free (cfg : NodeConfig) (p : NodeM α) : Prop :=
  ∀ l, p.Sat (promises cfg) l fun _ l' => l.Grows l'

namespace Free

theorem pure (a : α) : Free cfg (Pure.pure a) := fun l => .refl l

theorem bind {p : NodeM α} {f : α → NodeM β} (hp : Free cfg p) (hf : ∀ a, Free cfg (f a)) :
    Free cfg (p >>= f) := by
  intro l
  apply Program.Sat.bind (hp l)
  intro a l' hgrows
  exact (hf a l').mono fun _ _ h => hgrows.trans h

theorem op {o : Op} (hpre : ∀ l, promisePre l o) :
    Free cfg (Program.perform (E := effect) o) :=
  fun l => ⟨hpre l, fun r _ => .next l o r⟩

theorem disk (o : DiskOp) : Free cfg (Node.disk o) := op fun _ => trivial

theorem index (o : IndexOp) : Free cfg (Node.index o) := op fun _ => trivial

theorem spawn (j : Job) : Free cfg (Node.spawn j) := fun l => ⟨trivial, trivial, fun _ => .refl l⟩

theorem join (h : Handle effect) : Free cfg (Node.join h) := fun l r _ => .joined l h.job r

theorem promisePre_of_routine {o : Op} (h : o.routine = true) (l : Tally) : promisePre l o := by
  cases o with
  | fetch o =>
      cases o with
      | writesRemove _ => cases h
      | finishLeader _ _ => cases h
      | _ => trivial
  | _ => trivial

/-- Nothing that a read of a range starts rests on what its thread knows. -/
theorem walk : RangeWalk cfg fun _ p => Free cfg p where
  pure a := pure a
  bind hp hf := bind hp hf
  op _ ho := op (promisePre_of_routine ho)
  spawn j _ _ := spawn j
  join := join
  note _ := bind (index _) fun _ => bind (index _) fun _ => index _
  rebuild := bind (op (o := .snapshotKeys) fun _ => trivial) fun _ =>
    bind (index _) fun _ => index _
  started j _ _ := spawn j

end Free

end Specs

end BlobCache.Node
