import BlobCache.Conc.Way
import BlobCache.Hrw
import BlobCache.Node.Shapes

/-!
Peer requests that wait, seen from one node. Serving a peer asks no other peer; a
request that waits goes to the owner of the key by rendezvous hashing, and the
owner sends none; whoever takes the slot of the key at the owner is bound for the
origin.
-/

namespace BlobCache.Node

open Cache Conc Program

variable {cfg : NodeConfig} {view : Finset String} {key : ChunkKey} {owner : String}

/-! ### Jobs that ask no peer -/

def quietShape : Shape effect where
  op o _ := ∀ req, o ≠ Op.fetch (.peerFetch req)
  resp _ _ := True
  job j := Job.quiet j = true
  bind _ h := h

theorem quietShape_local (cfg : NodeConfig) : LocalShape cfg quietShape where
  plain o _ h := by
    rintro req rfl
    cases h
  started _ h := h
  note _ := ⟨nofun, fun _ _ => ⟨nofun, fun _ _ => ⟨nofun, fun _ _ => trivial⟩⟩⟩
  rebuild := ⟨nofun, fun _ _ => ⟨nofun, fun _ _ => ⟨nofun, fun _ _ => trivial⟩⟩⟩
  served _ _ _ _ := nofun

/-- What a thread asks a peer for, while it waits for the answer. -/
def requestAt (c : Config (machine cfg)) (t : Nat) : Option PeerRequest :=
  match c.threads[t]? with
  | some ⟨_, _, .running (.op (Op.fetch (.peerFetch req)) _)⟩ => some req
  | _ => none

theorem requestAt_some {c : Config (machine cfg)} {t : Nat} {req : PeerRequest}
    (h : requestAt c t = some req) :
    ∃ (th : Thread effect) (k : Fetched → NodeM Val), c.threads[t]? = some th ∧
      th.status = .running (.op (Op.fetch (.peerFetch req)) k) := by
  unfold requestAt at h
  split at h
  · rename_i hth
    cases h
    exact ⟨_, _, hth, rfl⟩
  · cases h

/-- A thread of a job that asks no peer, and whatever it starts, asks no peer. -/
theorem quiet_run {G : State → Event (machine cfg) → Prop} {c : Config (machine cfg)}
    (hrun : Config.Reach G (.init (State.new cfg)) c) {t u : Nat} {j : Job}
    (hjob : c.job t = some j) (hquiet : j.quiet = true) (hdesc : c.Descends t u) :
    requestAt c u = none := by
  have hbody : ∀ j, quietShape.job j → ((machine cfg).body j).Every quietShape :=
    fun j hj => (quietShape_local cfg).body j hj
  have hshaped := hrun.shaped hbody (fun _ _ _ _ _ _ _ _ => trivial) (.init _ _)
  have hinherited := hrun.inherited hbody (fun _ _ _ _ _ _ _ _ => trivial) (.init _ _) (.init _ _)
  cases hreq : requestAt c u with
  | none => rfl
  | some req =>
      obtain ⟨th, k, hth, hp⟩ := requestAt_some hreq
      have hadmitted : quietShape.job th.job := by
        refine hinherited.job_of_descends hdesc ?_ _ (by rw [Config.job, hth]; rfl)
        intro i hi
        rw [hjob] at hi
        cases hi
        exact hquiet
      exact absurd rfl ((hshaped u th _ hth hadmitted hp).1 req)

/-! ### The way to the origin -/

/-- With the node itself, the live members are those of the view. -/
def Agrees (cfg : NodeConfig) (view : Finset String) (alive : List NodeInfo) : Prop :=
  ∀ id, id ∈ alive.map (·.id) ↔ id ∈ view.erase cfg.meId

/-- What a leader of the key may do before it goes to the origin: it asks peers
for the key and none to wait, does not wait for another leader and does not give
up its slot. -/
def Op.homeward (key : ChunkKey) : Op → Bool
  | .fetch (.peerFetch req) => req.waitMs = 0 && req.key = key
  | .fetch (.recv _ _) | .fetch (.finishLeader _ _) | .fetch (.unknownMount _) => false
  | _ => true

/-- The members are those of the view, and no peer has the chunk. -/
def missing (cfg : NodeConfig) (view : Finset String) : (o : Op) → o.Resp → Prop
  | .fetch .membersAlive, alive => Agrees cfg view alive
  | .fetch (.peerFetch _), reply => ∃ e, reply = .error e
  | _, _ => True

def originWay (cfg : NodeConfig) (view : Finset String) (key : ChunkKey) : Way effect where
  goal o := ∃ req, o = Op.fetch (.getSend key req)
  pass o := Op.homeward key o = true
  resp := missing cfg view

variable {α : Type} {Q : α → Prop}

theorem along_fetch {o : FetchOp} {f : o.Resp → NodeM α} (ho : Op.homeward key (.fetch o) = true)
    (hf : ∀ r, missing cfg view (.fetch o) r → (f r).Along (originWay cfg view key) Q) :
    (Node.fetch o >>= f).Along (originWay cfg view key) Q :=
  .inr ⟨ho, hf⟩

theorem along_index {o : IndexOp} {f : o.Resp → NodeM α}
    (hf : ∀ r, (f r).Along (originWay cfg view key) Q) :
    (Node.index o >>= f).Along (originWay cfg view key) Q :=
  .inr ⟨rfl, fun r _ => hf r⟩

theorem askPeer_along (peer : NodeInfo) (workerAddr : Option Bytes) (expectedLen : Nat)
    (wasYes : Bool) :
    (askPeer cfg peer workerAddr key expectedLen wasYes 0).Along (originWay cfg view key)
      (· = none) := by
  unfold askPeer
  refine along_fetch (by simp [Op.homeward]) ?_
  rintro _ ⟨e, rfl⟩
  cases e
  case notFound =>
    dsimp only
    split
    · exact along_index fun _ => rfl
    · exact rfl
  all_goals exact rfl

theorem tryPeerFetch_along (peer : NodeInfo) (expectedLen : Nat) (wasYes : Bool) :
    (tryPeerFetch cfg peer key expectedLen wasYes 0).Along (originWay cfg view key)
      (· = none) := by
  unfold tryPeerFetch
  split
  · split
    · exact rfl
    · exact askPeer_along peer _ expectedLen wasYes
  · split
    · exact rfl
    · exact askPeer_along peer none expectedLen wasYes

theorem tryPeers_along (expectedLen : Nat) (peers : List (NodeInfo × Bool)) :
    (tryPeers cfg key expectedLen peers).Along (originWay cfg view key) (· = none) := by
  induction peers with
  | nil => exact rfl
  | cons p peers ih =>
      obtain ⟨peer, wasYes⟩ := p
      unfold tryPeers
      refine Along.bind (tryPeerFetch_along peer expectedLen wasYes) ?_
      rintro _ rfl
      exact ih

/-- The owner does not ask itself to wait. -/
theorem askStampedeLeader_along (howner : OwnerIn cfg.sha256 key view owner)
    (hview : cfg.meId ∈ view) (hme : cfg.meId = owner) (expectedLen yesCount : Nat)
    {alive : List NodeInfo} (halive : Agrees cfg view alive) :
    (askStampedeLeader cfg key expectedLen yesCount alive).Along (originWay cfg view key)
      (· = none) := by
  have htop : hrwTopId cfg.sha256 cfg.meId key alive = cfg.meId :=
    (howner cfg.meId hview alive halive).trans hme.symm
  unfold askStampedeLeader
  split
  · simp only [htop, ne_eq, not_true_eq_false, if_false]
    exact rfl
  · exact rfl

theorem askPeers_along (howner : OwnerIn cfg.sha256 key view owner) (hview : cfg.meId ∈ view)
    (hme : cfg.meId = owner) (expectedLen : Nat) :
    (askPeers cfg key expectedLen).Along (originWay cfg view key) (· = none) := by
  unfold askPeers
  refine along_fetch rfl fun alive halive => along_index fun candidates => ?_
  refine Along.bind (tryPeers_along expectedLen _) ?_
  rintro _ rfl
  exact askStampedeLeader_along howner hview hme expectedLen _ halive

theorem fetchBlobDirect_reaches (mount : MountConfig) (blob : String) (expectedLen : Nat) :
    (fetchBlobDirect cfg mount blob key expectedLen).Reaches (originWay cfg view key) :=
  .inl ⟨_, rfl⟩

theorem leadFetch_reaches (howner : OwnerIn cfg.sha256 key view owner) (hview : cfg.meId ∈ view)
    (hme : cfg.meId = owner) (mount : MountConfig) (blob : String) (expectedLen : Nat)
    (bypassPeers : Bool) :
    (leadFetch cfg mount blob key expectedLen bypassPeers).Reaches (originWay cfg view key) := by
  unfold leadFetch
  refine Reaches.bind ?_ _
  unfold doFetch
  have hpeers : (if bypassPeers then pure none else askPeers cfg key expectedLen :
      NodeM (Option Bytes)).Along (originWay cfg view key) (· = none) := by
    split
    · exact rfl
    · exact askPeers_along howner hview hme expectedLen
  refine Along.bind hpeers ?_
  rintro _ rfl
  exact fetchBlobDirect_reaches mount blob expectedLen

theorem leadServe_reaches (hmount : cfg.mounts.get? key.mount ≠ none) (expectedLen : Nat) :
    (leadServe cfg key expectedLen).Reaches (originWay cfg view key) := by
  unfold leadServe
  split
  · rename_i hnone
    exact absurd hnone hmount
  · exact Reaches.bind (fetchBlobDirect_reaches _ _ expectedLen) _

/-! ### Requests that wait -/

/-- Nobody outside asks for a pull that waits. -/
def Job.unwaited : Job → Prop
  | .pullChunkFromPeerWait _ _ _ _ _ _ _ waitMs => waitMs = 0
  | _ => True

def Op.takes (key : ChunkKey) : (o : Op) → o.Resp → Prop
  | .fetch o, r => o.takes key r
  | _, _ => False

/-- A request for the key that waits is for the owner and is not sent by it, and
a leader of the key at the owner is bound for the origin. -/
def Waiting (cfg : NodeConfig) (view : Finset String) (key : ChunkKey) (owner : String)
    {α : Type} (o : Op) (k : o.Resp → NodeM α) : Prop :=
  (∀ req, o = .fetch (.peerFetch req) → req.key = key → 0 < req.waitMs →
    req.peerId = owner ∧ cfg.meId ≠ owner) ∧
  (cfg.meId = owner → cfg.mounts.get? key.mount ≠ none →
    ∀ r, o.takes key r → (k r).Reaches (originWay cfg view key))

def waitShape (cfg : NodeConfig) (view : Finset String) (key : ChunkKey) (owner : String) :
    Shape effect where
  op := Waiting cfg view key owner
  resp
    | Op.fetch .membersAlive, alive => Agrees cfg view alive
    | _, _ => True
  job := Job.unwaited
  bind f h := ⟨h.1, fun hme hmount r hr => (h.2 hme hmount r hr).bind f⟩

theorem Waiting.of_other {o : Op} {k : o.Resp → NodeM α}
    (hpeer : ∀ req, o ≠ .fetch (.peerFetch req)) (hentry : ∀ k, o ≠ .fetch (.inflightEntry k)) :
    Waiting cfg view key owner o k := by
  refine ⟨fun req heq => absurd heq (hpeer req), fun _ _ r hr => ?_⟩
  cases o with
  | fetch o =>
      cases o with
      | inflightEntry => exact absurd rfl (hentry _)
      | _ => exact hr.elim
  | _ => exact hr.elim

theorem Waiting.ask {req : PeerRequest} {k : Fetched → NodeM α}
    (h : req.key = key → 0 < req.waitMs → req.peerId = owner ∧ cfg.meId ≠ owner) :
    Waiting cfg view key owner (.fetch (.peerFetch req)) k :=
  ⟨fun _ heq => by cases heq; exact h, fun _ _ _ hr => hr.elim⟩

theorem Waiting.enter {k : ChunkKey} {f : Role → NodeM α}
    (h : k = key → cfg.meId = owner → cfg.mounts.get? key.mount ≠ none →
      (f .leader).Reaches (originWay cfg view key)) :
    Waiting cfg view key owner (.fetch (.inflightEntry k)) f := by
  refine ⟨nofun, fun hme hmount r hr => ?_⟩
  obtain ⟨hk, rfl⟩ : k = key ∧ r = Role.leader := hr
  exact h hk hme hmount

theorem waitShape_local : LocalShape cfg (waitShape cfg view key owner) where
  plain o _ h := by
    refine Waiting.of_other ?_ ?_
    · rintro req rfl
      cases h
    · rintro k rfl
      cases h
  started j h := by
    cases j with
    | pullChunkFromPeerWait => cases h
    | _ => trivial
  note _ := ⟨.of_other nofun nofun, fun _ _ => ⟨.of_other nofun nofun,
    fun _ _ => ⟨.of_other nofun nofun, fun _ _ => trivial⟩⟩⟩
  rebuild := ⟨.of_other nofun nofun, fun _ _ => ⟨.of_other nofun nofun,
    fun _ _ => ⟨.of_other nofun nofun, fun _ _ => trivial⟩⟩⟩
  served k expectedLen f hf := by
    refine Waiting.enter ?_
    rintro rfl _ hmount
    rw [hf]
    exact leadServe_reaches hmount expectedLen

theorem waitShape_node (howner : OwnerIn cfg.sha256 key view owner) (hview : cfg.meId ∈ view) :
    NodeShape cfg (waitShape cfg view key owner) where
  toLocalShape := waitShape_local
  unpulled j h := by
    cases j with
    | pullChunkFromPeerWait => cases h
    | _ => trivial
  asked req hreq k := by
    refine Waiting.ask ?_
    intro _ hwait
    omega
  pulled mount blob offset expectedLen peerId url addr waitMs hjob k := by
    refine Waiting.ask ?_
    intro _ hwait
    exact absurd hjob hwait.ne'
  leader k expectedLen yesCount alive halive := by
    apply waitShape_local.walk.askStampedeLeader k expectedLen yesCount alive
    intro peer _ htop hother addr
    apply Every.perform (E := effect)
    apply Waiting.ask
    rintro rfl -
    have hpeer : peer.id = owner := htop.trans (howner cfg.meId hview alive halive)
    exact ⟨hpeer, fun hme => hother (hpeer.trans hme.symm)⟩
  led mount blob k expectedLen bypassPeers f hf := by
    refine Waiting.enter ?_
    rintro rfl hme _
    rw [hf]
    exact leadFetch_reaches howner hview hme mount blob expectedLen bypassPeers

/-- Nobody outside asks for a pull that waits, and the members that the node sees
are those of the view. -/
def viewsAgree (view : Finset String) (_ : State) : Event (machine cfg) → Prop
  | .start j => Job.unwaited j
  | .op _ (Op.fetch .membersAlive) c => Agrees cfg view (Choice.fetch c).alive
  | _ => True

theorem agrees_of_exec {s s' : State} {t : Nat} {c : Choice} {alive : List NodeInfo}
    (hg : viewsAgree view s (.op t (.fetch .membersAlive) c : Event (machine cfg)))
    (hex : exec cfg t (.fetch .membersAlive) c s = some (alive, s')) : Agrees cfg view alive := by
  have halive : c.fetch.alive = alive := congrArg Prod.fst (Option.some.inj (exec_fetch hex).1)
  rw [← halive]
  exact hg

theorem resp_of_viewsAgree {s s' : State} {t : Nat} {o : Op} {c : Choice} {r : o.Resp}
    (hg : viewsAgree view s (.op t o c : Event (machine cfg)))
    (hex : exec cfg t o c s = some (r, s')) : (waitShape cfg view key owner).resp o r := by
  cases o with
  | fetch o =>
      cases o with
      | membersAlive => exact agrees_of_exec hg hex
      | _ => trivial
  | _ => trivial

section Owner

variable (howner : OwnerIn cfg.sha256 key view owner) (hview : cfg.meId ∈ view)
  {c c' : Config (machine cfg)} {e : Event (machine cfg)}

include howner hview

theorem waits_shaped (hrun : Config.Reach (viewsAgree view) (.init (State.new cfg)) c) :
    c.Shaped (waitShape cfg view key owner) ∧ c.Admitted (waitShape cfg view key owner) := by
  have hbody : ∀ j, (waitShape cfg view key owner).job j →
      ((machine cfg).body j).Every (waitShape cfg view key owner) :=
    fun j hj => (waitShape_node howner hview).body j hj
  constructor
  · exact hrun.shaped hbody (fun _ _ _ _ _ _ hg hex => resp_of_viewsAgree hg hex) (.init _ _)
  · exact hrun.admitted hbody (fun _ _ hg => hg)
      (fun _ _ _ _ _ _ hg hex => resp_of_viewsAgree hg hex) (.init _ _) (.init _ _)

/-- Every request for the key that waits is for the owner, and the owner sends
none. -/
theorem request_to_owner (hrun : Config.Reach (viewsAgree view) (.init (State.new cfg)) c)
    {t : Nat} {req : PeerRequest} (hreq : requestAt c t = some req) (hkey : req.key = key)
    (hwait : 0 < req.waitMs) : req.peerId = owner ∧ cfg.meId ≠ owner := by
  obtain ⟨hshaped, hadmitted⟩ := waits_shaped howner hview hrun
  obtain ⟨th, k, hth, hp⟩ := requestAt_some hreq
  exact (hshaped t th _ hth (hadmitted t th hth) hp).1.1 req rfl hkey hwait

omit howner hview in
theorem guards_of_exec {t u : Nat} {o : Op} {ch : Choice} {s s' : State} {r : o.Resp}
    {k : ChunkKey} (hex : exec cfg t o ch s = some (r, s'))
    (hk : s'.fetch.guards.get? u = some k) :
    s.fetch.guards.get? u = some k ∨ (u = t ∧ o.takes k r) := by
  cases o with
  | disk o =>
      rw [(exec_disk hex).2.2] at hk
      exact .inl hk
  | index o =>
      rw [(exec_index hex).2.2] at hk
      exact .inl hk
  | fetch o => exact FetchState.exec_guards (exec_fetch hex).1 hk
  | snapshotKeys =>
      rw [(exec_snapshotKeys hex).2.2.1] at hk
      exact .inl hk

/-- The thread that goes to the origin for a key, or that a peer gives the chunk
to. -/
def settled : Event (machine cfg) → Option (Nat × ChunkKey)
  | .op t (Op.fetch (.getSend k _)) _ => some (t, k)
  | .op t (Op.fetch (.peerFetch req)) c =>
      match FetchState.peerReply cfg.rdma req (Choice.fetch c) with
      | .ok _ => some (t, req.key)
      | .error _ => none
  | _ => none

omit howner hview in
/-- The response is as reckoned with, or the thread is settled. -/
theorem missing_or_settled {t : Nat} {o : Op} {ch : Choice} {s s' : State} {r : o.Resp}
    (hg : viewsAgree view s (.op t o ch : Event (machine cfg)))
    (hex : exec cfg t o ch s = some (r, s')) (ho : o.homeward key = true) :
    missing cfg view o r ∨ settled (.op t o ch : Event (machine cfg)) = some (t, key) := by
  cases o with
  | fetch o =>
      cases o with
      | membersAlive => exact .inl (agrees_of_exec hg hex)
      | peerFetch req =>
          have hr : FetchState.peerReply cfg.rdma req ch.fetch = r :=
            congrArg Prod.fst (Option.some.inj (exec_fetch hex).1)
          have hkey : req.waitMs = 0 ∧ req.key = key := by simpa [Op.homeward] using ho
          cases hreply : FetchState.peerReply cfg.rdma req ch.fetch with
          | error err => exact .inl ⟨err, hr.symm.trans hreply⟩
          | ok d =>
              right
              simp only [settled, hreply, hkey.2]
      | _ => exact .inl trivial
  | _ => exact .inl trivial

/-- The leaders of the key that are not settled are bound for the origin. -/
structure Heading (cfg : NodeConfig) (view : Finset String) (key : ChunkKey) (gone : Nat → Prop)
    (c : Config (machine cfg)) : Prop where
  bound : ∀ t k, c.state.fetch.guards.get? t = some k → t < c.threads.length
  leader : ∀ (t : Nat) (th : Thread effect) (p : NodeM Val), c.threads[t]? = some th →
    th.status = .running p → c.state.fetch.guards.get? t = some key →
      gone t ∨ p.Reaches (originWay cfg view key)

omit howner hview in
theorem Heading.init (gone : Nat → Prop) :
    Heading cfg view key gone (.init (State.new cfg)) := by
  refine ⟨?_, ?_⟩
  · intro t k hk
    cases hk
  · intro t th p hth
    cases hth

omit howner hview in
theorem Heading.move {gone gone' : Nat → Prop} (h : Heading cfg view key gone c) {t : Nat}
    {th : Thread effect} {st : Status effect} {s' : State} (hth : c.threads[t]? = some th)
    (hgone : ∀ u, gone u → gone' u)
    (hguards : ∀ u k, s'.fetch.guards.get? u = some k → u ≠ t →
      c.state.fetch.guards.get? u = some k)
    (hst : ∀ p, st = .running p → s'.fetch.guards.get? t = some key →
      gone' t ∨ p.Reaches (originWay cfg view key)) :
    Heading cfg view key gone' { c.setStatus t th st with state := s' } := by
  refine ⟨?_, ?_⟩
  · intro u k hk
    rw [Config.setStatus, List.length_set]
    by_cases hut : u = t
    · subst hut
      exact Config.lt_of_thread hth
    · exact h.bound u k (hguards u k hk hut)
  · intro u thu p hu hp hk
    rcases Config.thread_setStatus hth hu with ⟨hut, hold⟩ | ⟨rfl, rfl⟩
    · exact (h.leader u thu p hold hp (hguards u key hk hut)).imp_left (hgone u)
    · exact hst p hp hk

omit howner hview in
theorem Heading.append {gone : Nat → Prop} (h : Heading cfg view key gone c) (th : Thread effect) :
    Heading cfg view key gone { c with threads := c.threads ++ [th] } := by
  refine ⟨?_, ?_⟩
  · intro t k hk
    rw [List.length_append]
    exact Nat.lt_add_right _ (h.bound t k hk)
  · intro t tht p ht hp hk
    rw [List.getElem?_append_left (h.bound t key hk)] at ht
    exact h.leader t tht p ht hp hk

omit howner hview in
theorem Heading.mono {gone gone' : Nat → Prop} (h : Heading cfg view key gone c)
    (hgone : ∀ t, gone t → gone' t) : Heading cfg view key gone' c :=
  ⟨h.bound, fun t th p hth hp hk => (h.leader t th p hth hp hk).imp_left (hgone t)⟩

theorem Heading.step {gone : Nat → Prop} (h : Heading cfg view key gone c)
    (hrun : Config.Reach (viewsAgree view) (.init (State.new cfg)) c) (hme : cfg.meId = owner)
    (hmount : cfg.mounts.get? key.mount ≠ none) (hg : viewsAgree view c.state e)
    (hstep : c.Stepped e c') :
    Heading cfg view key (fun t => gone t ∨ settled e = some (t, key)) c' := by
  obtain ⟨hshaped, hadmitted⟩ := waits_shaped howner hview hrun
  have hsame : ∀ {t : Nat} (u : Nat) (k : ChunkKey), c.state.fetch.guards.get? u = some k →
      u ≠ t → c.state.fetch.guards.get? u = some k := fun _ _ hk _ => hk
  cases hstep with
  | start hext => exact (h.mono fun _ => .inl).append _
  | finish hth hp => exact h.move hth (fun _ => .inl) hsame nofun
  | @op t th o k ch r s hth hp hex =>
      refine h.move hth (fun _ => .inl) ?_ ?_
      · intro u k' hk hut
        rcases guards_of_exec hex hk with hk | ⟨rfl, -⟩
        · exact hk
        · exact absurd rfl hut
      · rintro p ⟨⟩ hk
        rcases guards_of_exec hex hk with hk | ⟨-, htakes⟩
        · -- It was a leader before: it is settled, by this step or earlier, or goes on.
          rcases h.leader t th _ hth hp hk with hgone | hgoal | ⟨hpass, hrest⟩
          · exact .inl (.inl hgone)
          · obtain ⟨req, rfl⟩ := hgoal
            exact .inl (.inr rfl)
          · rcases missing_or_settled hg hex hpass with hmissing | hsettled
            · exact .inr (hrest r hmissing)
            · exact .inl (.inr hsettled)
        · have hwaiting := (hshaped t th _ hth (hadmitted t th hth) hp).1
          exact .inr (hwaiting.2 hme hmount r htakes)
  | spawn hth hp =>
      refine Heading.append (h.move hth (fun _ => .inl) hsame ?_) _
      rintro p ⟨⟩ hk
      exact (h.leader _ _ _ hth hp hk).imp .inl fun hreach => hreach _
  | join hth hp hchild hjob hst | lost hth hp hchild hjob hst =>
      refine h.move hth (fun _ => .inl) hsame ?_
      rintro p ⟨⟩ hk
      exact (h.leader _ _ _ hth hp hk).imp .inl fun hreach => hreach _
  | cancel hth hp hcan =>
      refine h.move hth (fun _ => .inl) ?_ nofun
      intro u k hk _
      exact FetchState.dropGuard_guards _ hk

end Owner

end BlobCache.Node
