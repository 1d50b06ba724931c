import BlobCache.Conc.Shape
import BlobCache.Node.Walk

/-!
Shapes of the programs of the node. A shape that leaves plain operations alone and
holds of the places that are not plain (those that change the filter, take a slot of
the singleflight map or ask a peer) goes with the text of a program, so the walk
through the programs gives it for the body of every job. The jobs that ask no peer
come first, with fewer such places.
-/

namespace BlobCache.Node

open Cache Conc Program

/-- Plain operations and the jobs that ask no peer are free. -/
structure PlainShape (S : Shape effect) : Prop where
  plain : ∀ {α : Type} (o : Op) (k : o.Resp → NodeM α), o.plain = true → S.op o k
  started : ∀ j : Job, j.quiet = true → S.job j

/-- A shape of every program that asks no peer. -/
structure LocalShape (cfg : NodeConfig) (S : Shape effect) : Prop extends PlainShape S where
  note : ∀ digest, (noteLocalInsert digest).Every S
  rebuild : (rebuildLocalFromCache cfg).Every S
  served : ∀ (key : ChunkKey) (expectedLen : Nat) (f : Role → NodeM (Option Bytes)),
    f .leader = leadServe cfg key expectedLen → S.op (.fetch (.inflightEntry key)) f

namespace LocalShape

variable {cfg : NodeConfig} {S : Shape effect}

theorem fetch (h : LocalShape cfg S) {o : FetchOp} (ho : Op.plain (.fetch o) = true) :
    (Node.fetch o).Every S :=
  .perform (h.plain (.fetch o) _ ho)

theorem spawn (h : LocalShape cfg S) {j : Job} (hj : j.quiet = true) :
    (Node.spawn j).Every S :=
  ⟨h.started j hj, fun _ => trivial⟩

theorem walk (h : LocalShape cfg S) : LocalWalk cfg fun _ p => p.Every S where
  pure a := .pure a
  bind hp hf := hp.bind hf
  op o ho := .perform (h.plain o _ (Op.plain_of_routine ho))
  spawn _ hj _ := h.spawn hj
  join _ := fun _ => trivial
  note := h.note
  rebuild := h.rebuild
  stored _ _ := .bind (h.fetch rfl) fun _ => .bind (h.spawn rfl) fun _ => .pure _
  finished _ _ := h.fetch rfl
  served key expectedLen f hf hroles :=
    .perform_bind (E := effect) (h.served key expectedLen f hf) fun role _ => hroles role

theorem insertTask (h : LocalShape cfg S) (key : ChunkKey) (data : Bytes) :
    (Node.insertTask cfg key data).Every S := by
  unfold Node.insertTask
  apply h.walk.call rfl rfl
  intro stored
  split
  · exact .bind (h.note _) fun _ => h.fetch rfl
  · exact .bind (h.fetch rfl) fun _ => h.fetch rfl
  · exact .bind (h.fetch rfl) fun _ => h.fetch rfl

/-- Every job that asks no peer has the shape. -/
theorem body (h : LocalShape cfg S) (j : Job) (hj : j.quiet = true) :
    (Node.body cfg j).Every S := by
  cases htask : j.isInsertTask with
  | false => exact h.walk.body j hj htask
  | true =>
      cases j with
      | insertTask key data => exact .bind (h.insertTask key data) fun _ => .pure _
      | _ => cases htask

end LocalShape

/-- A shape of every program of the node. -/
structure NodeShape (cfg : NodeConfig) (S : Shape effect) : Prop extends LocalShape cfg S where
  unpulled : ∀ j : Job, j.pulls = false → S.job j
  asked : ∀ {α : Type} (req : PeerRequest), req.waitMs = 0 →
    ∀ k : Except BcError Bytes → NodeM α, S.op (.fetch (.peerFetch req)) k
  pulled : ∀ {α : Type} (mount : MountConfig) (blob : String) (offset expectedLen : Nat)
    (peerId url : String) (addr : Option Bytes) (waitMs : Nat),
    S.job (Job.pullChunkFromPeerWait mount blob offset expectedLen peerId url addr waitMs) →
    ∀ k : Except BcError Bytes → NodeM α, S.op (.fetch (.peerFetch
      ⟨peerId, url, addr, ⟨mount.name, blob, offset⟩, expectedLen % 2 ^ 32, waitMs⟩)) k
  leader : ∀ key expectedLen yesCount (alive : List NodeInfo),
    S.resp (.fetch .membersAlive) alive →
      (askStampedeLeader cfg key expectedLen yesCount alive).Every S
  led : ∀ (mount : MountConfig) (blob : String) (key : ChunkKey) (expectedLen : Nat)
    (bypassPeers : Bool) (f : Role → NodeM Fetched),
    f .leader = leadFetch cfg mount blob key expectedLen bypassPeers →
      S.op (.fetch (.inflightEntry key)) f

namespace NodeShape

variable {cfg : NodeConfig} {S : Shape effect}

theorem walk (h : NodeShape cfg S) :
    NodeWalk cfg (S.resp (.fetch .membersAlive)) S.job fun _ p => p.Every S where
  toLocalWalk := h.toLocalShape.walk
  started j hj _ := ⟨h.unpulled j hj, fun _ => trivial⟩
  asked req hreq := .perform (E := effect) (h.asked req hreq _)
  pulled mount blob offset expectedLen peerId url addr waitMs hjob :=
    .perform (E := effect) (h.pulled mount blob offset expectedLen peerId url addr waitMs hjob _)
  members hf := .perform_bind (E := effect) (h.plain (.fetch .membersAlive) _ rfl) hf
  leader := h.leader
  led mount blob key expectedLen bypassPeers f hf hroles :=
    .perform_bind (E := effect) (h.led mount blob key expectedLen bypassPeers f hf)
      fun role _ => hroles role

/-- Every job that the shape admits has it. -/
theorem body (h : NodeShape cfg S) (j : Job) (hj : S.job j) : (Node.body cfg j).Every S := by
  cases htask : j.isInsertTask with
  | false => exact h.walk.body j hj htask
  | true =>
      apply h.toLocalShape.body
      cases j with
      | insertTask key data => rfl
      | _ => cases htask

end NodeShape

end BlobCache.Node
