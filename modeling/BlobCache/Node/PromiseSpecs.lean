import BlobCache.Node.Promises

/-!
What the methods of the cache and the fetcher tell their threads. Every way in
which a fetch ends well leaves the chunk promised to the thread: it was found in
memory or in the index, it was handed over by the leader, or it came from a peer
or the origin and was put into memory first.
-/

namespace BlobCache.Node

open Cache Conc

variable {cfg : NodeConfig} {l : Tally} {key : ChunkKey} {α β : Type}

/-- A program of the node keeps to the protocol and ends in `Q`. -/
abbrev Told (cfg : NodeConfig) (l : Tally) (p : NodeM α) (Q : α → Tally → Prop) : Prop :=
  p.Sat (promises cfg) l Q

/-- A chunk that was returned is promised. -/
def Given (key : ChunkKey) (r : Option Bytes) (l : Tally) : Prop :=
  r.isSome = true → key ∈ l.promised

theorem Given.miss (key : ChunkKey) (l : Tally) : Given key none l := by
  intro h
  cases h

namespace Told

theorem bind {p : NodeM α} {f : α → NodeM β} {Q : α → Tally → Prop} {R : β → Tally → Prop}
    (h : Told cfg l p Q) (hf : ∀ a l', Q a l' → Told cfg l' (f a) R) :
    Told cfg l (p >>= f) R :=
  Program.Sat.bind h hf

theorem mono {p : NodeM α} {Q R : α → Tally → Prop} (h : Told cfg l p Q)
    (hQR : ∀ a l', Q a l' → R a l') : Told cfg l p R :=
  Program.Sat.mono h hQR

theorem pure {a : α} {Q : α → Tally → Prop} (h : Q a l) : Told cfg l (Pure.pure a) Q := h

theorem disk_bind {o : DiskOp} {f : o.Resp → NodeM β} {R : β → Tally → Prop}
    (hf : ∀ r, Told cfg (l.disk o r) (f r) R) : Told cfg l (disk o >>= f) R :=
  ⟨trivial, fun r _ => hf r⟩

theorem fetch_bind {o : FetchOp} {f : o.Resp → NodeM β} {R : β → Tally → Prop}
    (hpre : promisePre l (.fetch o)) (hf : ∀ r, Told cfg (l.fetch o r) (f r) R) :
    Told cfg l (fetch o >>= f) R :=
  ⟨hpre, fun r _ => hf r⟩

theorem call_bind {j : Job} {f : Option Val → NodeM β} {R : β → Tally → Prop}
    (hf : ∀ r, Told cfg (l.joined j r) (f r) R) : Told cfg l (call j >>= f) R :=
  ⟨trivial, trivial, fun _ r _ => hf r⟩

/-- Nothing was returned. -/
theorem missed : Told cfg l (Pure.pure none) (Given key) := Given.miss key l

theorem failed (e : BcError) :
    Told cfg l (Pure.pure (Except.error e)) fun r l' => Given key (Except.toOption r) l' :=
  Given.miss key l

end Told

theorem Free.told {p : NodeM α} (h : Free cfg p) : Told cfg l p fun _ _ => True :=
  (h l).mono fun _ _ _ => trivial

theorem Free.given {p : NodeM (Option Bytes)} (h : Free cfg p) (hkey : key ∈ l.promised) :
    Told cfg l p (Given key) :=
  (h l).mono fun _ _ hgrows _ => hgrows.promised hkey

theorem tryGet_given (key : ChunkKey) : Told cfg l (tryGet key) (Given key) := by
  unfold tryGet
  refine Told.disk_bind fun tracked => ?_
  cases tracked with
  | false => exact Told.disk_bind fun _ => Told.missed
  | true =>
      apply Free.given _ List.mem_cons_self
      refine .bind (.disk _) fun opened => ?_
      split
      · exact .bind (.disk _) fun _ => .pure _
      · refine .bind (.disk _) fun read => ?_
        split
        · exact .bind (.disk _) fun _ => .pure _
        · refine .bind (.disk _) fun touched => ?_
          split
          · exact .pure _
          · exact .bind (.disk _) fun _ => .pure _

theorem insert_landed (key : ChunkKey) (data : Bytes) :
    Told cfg l (insert key data) fun r l' => r = .ok () → key ∈ l'.landed := by
  have hfail (l' : Tally) : Told cfg l' (Pure.pure (Except.error osError))
      fun r l'' => r = Except.ok () → key ∈ l''.landed := by
    intro h
    cases h
  unfold insert
  refine Told.disk_bind fun tmp => Told.disk_bind fun created => ?_
  cases created with
  | none => exact hfail _
  | some fd =>
      refine Told.disk_bind fun written => ?_
      cases written with
      | false => exact hfail _
      | true =>
          refine Told.disk_bind fun synced => ?_
          cases synced with
          | false => exact hfail _
          | true =>
              refine Told.disk_bind fun renamed => ?_
              cases renamed with
              | false => exact hfail _
              | true => exact Told.disk_bind fun _ => Told.pure fun _ => List.mem_cons_self

/-- The task gives up the chunk only after the insert has landed or its failure
has been recorded. -/
theorem insertTask_told (key : ChunkKey) (data : Bytes) :
    Told cfg l (insertTask cfg key data) fun _ _ => True := by
  have hend (l' : Tally) (hsettled : key ∈ l'.settled) :
      Told cfg l' (fetch (.writesRemove key)) fun _ _ => True :=
    ⟨hsettled, fun _ _ => trivial⟩
  have hrecord (l' : Tally) (e : String) :
      Told cfg l' (fetch (.recordInsertFailure key e) >>= fun _ => fetch (.writesRemove key))
        fun _ _ => True :=
    Told.fetch_bind trivial fun _ => hend _ List.mem_cons_self
  unfold insertTask
  refine Told.call_bind fun stored => ?_
  cases stored with
  | none => exact hrecord _ _
  | some v =>
      cases v with
      | done r =>
          cases r with
          | error e => exact hrecord _ _
          | ok u =>
              refine Told.bind (Free.walk.note _ _) ?_
              intro _ l' hgrows
              exact hend l' (hgrows.settled List.mem_cons_self)
      | _ => exact hrecord _ _

theorem spawnInsert_given (key : ChunkKey) (data : Bytes) :
    Told cfg l (spawnInsert key data) fun _ l' => key ∈ l'.promised :=
  Told.fetch_bind trivial fun _ => ⟨trivial, trivial, fun _ => List.mem_cons_self⟩

/-! ## The leader -/

theorem fetchBlobDirect_given (mount : MountConfig) (blob : String) (key : ChunkKey) (n : Nat) :
    Told cfg l (fetchBlobDirect cfg mount blob key n) fun r l' => Given key r.toOption l' := by
  unfold fetchBlobDirect
  refine Told.fetch_bind trivial fun _ => Told.fetch_bind trivial fun reply => ?_
  cases reply with
  | error e => exact Told.failed e
  | ok data =>
      dsimp only
      split
      · exact Told.failed _
      · refine Told.bind (spawnInsert_given key data) ?_
        intro _ l' hkey
        exact Told.fetch_bind trivial fun _ => Told.pure fun _ => hkey

theorem askPeer_given (peer : NodeInfo) (addr : Option Bytes) (key : ChunkKey) (n waitMs : Nat)
    (wasYes : Bool) :
    Told cfg l (askPeer cfg peer addr key n wasYes waitMs) (Given key) := by
  unfold askPeer
  refine Told.fetch_bind trivial fun reply => ?_
  cases reply with
  | error e =>
      cases e with
      | notFound msg =>
          dsimp only
          split
          · refine Told.bind (Free.index _).told ?_
            intro _ l' _
            exact Told.missed
          · exact Told.missed
      | _ => exact Told.missed
  | ok data =>
      dsimp only
      split
      · exact Told.missed
      · split
        · refine Told.bind (spawnInsert_given key data) ?_
          intro _ l' hkey
          exact Told.fetch_bind trivial fun _ => Told.pure fun _ => hkey
        · refine Told.fetch_bind trivial fun _ => Told.fetch_bind trivial fun _ => ?_
          exact Told.pure fun _ => List.mem_cons_self

theorem tryPeerFetch_given (peer : NodeInfo) (key : ChunkKey) (n waitMs : Nat) (wasYes : Bool) :
    Told cfg l (tryPeerFetch cfg peer key n wasYes waitMs) (Given key) := by
  unfold tryPeerFetch
  split
  · split
    · exact Told.missed
    · exact askPeer_given ..
  · split
    · exact Told.missed
    · exact askPeer_given ..

theorem tryPeers_given (key : ChunkKey) (n : Nat) (peers : List (NodeInfo × Bool)) :
    Told cfg l (tryPeers cfg key n peers) (Given key) := by
  induction peers generalizing l with
  | nil => exact Told.missed
  | cons p peers ih =>
      obtain ⟨peer, wasYes⟩ := p
      unfold tryPeers
      refine Told.bind (tryPeerFetch_given peer key n 0 wasYes) ?_
      intro got l' hgot
      cases got with
      | some data => exact Told.pure hgot
      | none => exact ih

theorem askStampedeLeader_given (key : ChunkKey) (n yesCount : Nat) (alive : List NodeInfo) :
    Told cfg l (askStampedeLeader cfg key n yesCount alive) (Given key) := by
  unfold askStampedeLeader
  split
  · dsimp only
    split
    · split
      · exact tryPeerFetch_given ..
      · exact Told.missed
    · exact Told.missed
  · exact Told.missed

theorem askPeers_given (key : ChunkKey) (n : Nat) :
    Told cfg l (askPeers cfg key n) (Given key) := by
  unfold askPeers
  refine Told.fetch_bind trivial fun alive => Told.bind (Free.index _).told ?_
  intro candidates l' _
  refine Told.bind (tryPeers_given key n _) ?_
  intro got l'' hgot
  cases got with
  | some data => exact Told.pure hgot
  | none => exact askStampedeLeader_given ..

theorem doFetch_given (mount : MountConfig) (blob : String) (key : ChunkKey) (n : Nat)
    (bypass : Bool) :
    Told cfg l (doFetch cfg mount blob key n bypass) fun r l' => Given key r.toOption l' := by
  have hpeers : Told cfg l (if bypass then return none else askPeers cfg key n) (Given key) := by
    split
    · exact Told.missed
    · exact askPeers_given key n
  unfold doFetch
  refine Told.bind hpeers ?_
  intro got l' hgot
  cases got with
  | some data => exact Told.pure hgot
  | none => exact fetchBlobDirect_given ..

/-- What was fetched may be broadcast. -/
theorem finishLeader_pre {r : Fetched} (h : Given key r.toOption l) :
    promisePre l (.fetch (.finishLeader key (broadcastOf r))) := by
  cases r with
  | ok d => exact h rfl
  | error e => trivial

theorem leadFetch_given (mount : MountConfig) (blob : String) (key : ChunkKey) (n : Nat)
    (bypass : Bool) :
    Told cfg l (leadFetch cfg mount blob key n bypass) fun r l' => Given key r.toOption l' := by
  unfold leadFetch
  refine Told.bind (doFetch_given mount blob key n bypass) ?_
  intro r l' hr
  exact Told.fetch_bind (finishLeader_pre hr) fun _ => Told.pure hr

/-! ## Followers and hits -/

theorem retryFromCache_given (key : ChunkKey) (n : Nat) :
    Told cfg l (retryFromCache key n) fun r l' => Given key r.toOption l' := by
  unfold retryFromCache
  refine Told.call_bind fun got => ?_
  split
  · split
    · exact Told.pure fun _ => List.mem_cons_self
    · exact Told.failed _
  · exact Told.failed _

theorem mem_heard {l : Tally} {i : Nat} (h : (key, i) ∈ l.slots) : key ∈ l.heard i := by
  apply List.mem_filterMap.mpr
  exact ⟨(key, i), h, if_pos rfl⟩

theorem followLeader_given {slot : Nat} (hslot : (key, slot) ∈ l.slots) (n : Nat) :
    Told cfg l (followLeader key slot n) fun r l' => Given key r.toOption l' := by
  unfold followLeader
  refine Told.fetch_bind trivial fun heard => ?_
  cases heard with
  | closed | elapsed => exact retryFromCache_given key n
  | message msg =>
      cases msg with
      | error e => exact Told.failed _
      | ok data =>
          dsimp only
          split
          · exact Told.failed _
          · exact Told.pure fun _ => List.mem_append_left _ (mem_heard hslot)

theorem given_ofLength {n : Nat} {hit : Option Bytes} (h : Given key hit l) :
    Given key (ofLength n hit) l := by
  intro hsome
  apply h
  cases hit with
  | none => exact hsome
  | some d => rfl

theorem inflightWritesHit_given (key : ChunkKey) (n : Nat) :
    Told cfg l (inflightWritesHit key n) (Given key) := by
  refine Told.fetch_bind trivial fun hit => Told.pure (given_ofLength ?_)
  cases hit with
  | none => exact Given.miss key _
  | some d => exact fun _ => List.mem_cons_self

theorem peerLruHit_given (key : ChunkKey) (n : Nat) :
    Told cfg l (peerLruHit key n) (Given key) := by
  refine Told.fetch_bind trivial fun hit => Told.pure (given_ofLength ?_)
  cases hit with
  | none => exact Given.miss key _
  | some d => exact fun _ => List.mem_cons_self

theorem cacheHit_given (key : ChunkKey) (n : Nat) :
    Told cfg l (cacheHit key n) fun r l' => Given key (r.toOption.bind id) l' := by
  have hmiss (l' : Tally) : Told cfg l' (Pure.pure (.ok none : Except BcError (Option Bytes)))
      fun r l'' => Given key (r.toOption.bind id) l'' := Given.miss key l'
  have herror (l' : Tally) :
      Told cfg l' (Pure.pure (.error cacheGetJoin : Except BcError (Option Bytes)))
        fun r l'' => Given key (r.toOption.bind id) l'' := Given.miss key l'
  unfold cacheHit
  refine Told.call_bind fun got => ?_
  split
  · split
    · exact Told.pure fun _ => List.mem_cons_self
    · exact Told.call_bind fun _ => hmiss _
  · exact hmiss _
  · exact herror _

/-- The whole of `fetch_chunk_inner`. -/
theorem fetchChunkInner_given (mount : MountConfig) (blob : String) (offset n : Nat)
    (bypass : Bool) :
    Told cfg l (fetchChunkInner cfg mount blob offset n bypass) fun r l' =>
      Given ⟨mount.name, blob, offset⟩ r.toOption l' := by
  unfold fetchChunkInner
  refine Told.bind (inflightWritesHit_given _ n) ?_
  intro writing l' hwriting
  cases writing with
  | some b => exact Told.pure hwriting
  | none =>
      refine Told.bind (peerLruHit_given _ n) ?_
      intro lru l' hlru
      cases lru with
      | some b => exact Told.pure hlru
      | none =>
          refine Told.bind (cacheHit_given _ n) ?_
          intro cached l' hcached
          match cached, hcached with
          | .error e, _ => exact Told.failed e
          | .ok (some b), hcached => exact Told.pure hcached
          | .ok none, _ =>
              refine Told.fetch_bind trivial fun role => ?_
              cases role with
              | follower slot => exact followLeader_given List.mem_cons_self n
              | leader => exact leadFetch_given ..

/-! ## Requests -/

theorem fetchChunkRange_told (mount : MountConfig) (blob : String) (offset sub len n : Nat) :
    Told cfg l (fetchChunkRange cfg mount blob offset sub len n) fun _ _ => True := by
  have hwrites (key : ChunkKey) : Free cfg (inflightWritesSlice key sub len) :=
    .bind (.op fun _ => trivial) fun _ => .pure _
  have hlru (key : ChunkKey) : Free cfg (peerLruSlice key sub len n) :=
    .bind (.op fun _ => trivial) fun _ => .pure _
  unfold fetchChunkRange
  split
  · exact Told.pure trivial
  · refine Told.bind (hwrites _).told ?_
    intro writing l' _
    split
    · exact Told.pure trivial
    · refine Told.bind (hlru _).told ?_
      intro lru l' _
      split
      · exact Told.pure trivial
      · refine Told.call_bind fun cached => ?_
        split
        · exact Told.pure trivial
        · unfold sliceOfFetched
          refine Told.bind (fetchChunkInner_given mount blob offset n false) ?_
          intro full l' _
          split
          · exact Told.pure trivial
          · split <;> exact Told.pure trivial
        · exact Told.pure trivial

theorem leadServe_told (key : ChunkKey) (n : Nat) :
    Told cfg l (leadServe cfg key n) fun _ _ => True := by
  unfold leadServe
  split
  · exact Told.fetch_bind trivial fun _ => Told.pure trivial
  · refine Told.bind (fetchBlobDirect_given _ _ key n) ?_
    intro r l' hr
    exact Told.fetch_bind (finishLeader_pre hr) fun _ => Told.pure trivial

theorem enterServe_told (key : ChunkKey) (n : Nat) :
    Told cfg l (enterServe cfg key n) fun _ _ => True := by
  refine Told.fetch_bind trivial fun role => ?_
  cases role with
  | leader => exact leadServe_told key n
  | follower slot =>
      refine Told.fetch_bind trivial fun heard => ?_
      split <;> exact Told.pure trivial

theorem servePeerChunk_told (key : ChunkKey) (n waitMs : Nat) :
    Told cfg l (servePeerChunk cfg key n waitMs) fun _ _ => True := by
  unfold servePeerChunk
  refine Told.call_bind fun got => ?_
  split
  · split
    · exact Told.pure trivial
    · exact enterServe_told key n
  · exact enterServe_told key n

theorem pullFromPeer_given (mount : MountConfig) (blob : String) (offset n : Nat)
    (peerId url : String) (addr : Option Bytes) (waitMs : Nat) :
    Told cfg l (pullFromPeer cfg mount blob offset n peerId url addr waitMs) fun r l' =>
      Given ⟨mount.name, blob, offset⟩ r.toOption l' := by
  unfold pullFromPeer
  dsimp only
  refine Told.fetch_bind trivial fun reply => ?_
  cases reply with
  | error e =>
      cases e with
      | notFound msg =>
          refine Told.bind (fetchChunkInner_given mount blob offset n true) ?_
          intro r l' hr
          cases r with
          | ok d => exact Told.pure hr
          | error e => exact Told.failed _
      | _ => exact Told.failed _
  | ok data =>
      dsimp only
      split
      · exact Told.failed _
      · refine Told.bind (spawnInsert_given _ data) ?_
        intro _ l' hkey
        exact Told.pure fun _ => hkey

theorem pullChunkFromPeerWait_given (mount : MountConfig) (blob : String) (offset n : Nat)
    (peerId url : String) (addr : Option Bytes) (waitMs : Nat) :
    Told cfg l (pullChunkFromPeerWait cfg mount blob offset n peerId url addr waitMs)
      fun r l' => Given ⟨mount.name, blob, offset⟩ r.toOption l' := by
  unfold pullChunkFromPeerWait
  refine Told.bind (tryGet_given _) ?_
  intro got l' hgot
  cases got with
  | none => exact pullFromPeer_given ..
  | some b =>
      dsimp only
      split
      · exact Told.pure hgot
      · exact pullFromPeer_given ..

/-! ## Every job -/

/-- Jobs that neither store a chunk nor promise one. -/
def Job.silent : Job → Prop
  | .tryGet _ | .insert _ _ => False
  | j => j.chunkKey? = none

theorem Told.silent {j : Job} (hj : j.silent) (v : Val) : (promises cfg).post j v l := by
  cases j with
  | tryGet => exact hj.elim
  | insert => exact hj.elim
  | fetchChunk => cases hj
  | fetchChunkOriginOnly => cases hj
  | pullChunkFromPeerWait => cases hj
  | _ =>
      constructor
      · intro k hk
        cases v with
        | fetched r => cases r <;> cases hk
        | cached r => cases r <;> cases hk
        | _ => cases hk
      · intro k hk
        cases v with
        | done r => cases r <;> cases hk
        | _ => cases hk

theorem Job.grants_ok (j : Job) (d : Bytes) : j.grants (.fetched (.ok d)) = j.chunkKey? := by
  cases j <;> rfl

theorem Job.grants_error (j : Job) (e : BcError) : j.grants (.fetched (.error e)) = none := by
  cases j <;> rfl

theorem Job.inserts_fetched (j : Job) (r : Fetched) : j.inserts (.fetched r) = none := by
  cases j <;> rfl

/-- A fetch whose chunk is promised keeps what its job promises. -/
theorem Told.fetched {j : Job} {r : Fetched} (hkey : j.chunkKey? = some key)
    (hr : Given key r.toOption l) : (promises cfg).post j (.fetched r) l := by
  constructor
  · intro k hk
    cases r with
    | error e =>
        rw [Job.grants_error] at hk
        cases hk
    | ok d =>
        rw [Job.grants_ok, hkey] at hk
        cases hk
        exact hr rfl
  · intro k hk
    rw [Job.inserts_fetched] at hk
    cases hk

theorem body_told (j : Job) : Told cfg {} (body cfg j) ((promises cfg).post j) := by
  have hquiet {α : Type} {p : NodeM α} {f : α → Val} (hj : j.silent)
      (h : Told cfg {} p fun _ _ => True) :
      Told cfg {} (p >>= fun a => Pure.pure (f a)) ((promises cfg).post j) :=
    Told.bind h fun _ _ _ => Told.silent hj _
  have hfetch {p : NodeM Fetched} {k : ChunkKey} (hkey : j.chunkKey? = some k)
      (h : Told cfg {} p fun r l' => Given k r.toOption l') :
      Told cfg {} (p >>= fun r => Pure.pure (.fetched r)) ((promises cfg).post j) :=
    Told.bind h fun _ _ hr => Told.fetched hkey hr
  cases j with
  | tryGet key =>
      refine Told.bind (tryGet_given key) ?_
      intro r l' hr
      constructor
      · intro k hk
        cases r with
        | none => cases hk
        | some d =>
            cases hk
            exact hr rfl
      · intro k hk
        cases hk
  | insert key data =>
      refine Told.bind (insert_landed key data) ?_
      intro r l' hr
      constructor
      · intro k hk
        cases hk
      · intro k hk
        cases r with
        | error e => cases hk
        | ok u =>
            cases hk
            exact hr rfl
  | fetchChunk mount blob offset n | fetchChunkOriginOnly mount blob offset n =>
      exact hfetch rfl (fetchChunkInner_given ..)
  | pullChunkFromPeerWait => exact hfetch rfl (pullChunkFromPeerWait_given ..)
  | tryGetRange key o n => exact hquiet rfl (Free.walk.tryGetRange key o n).told
  | tryGetIntoSlice key n => exact hquiet rfl (Free.walk.tryGetIntoSlice key n).told
  | remove key => exact hquiet rfl (Free.walk.remove key).told
  | reconcileWithDisk => exact hquiet rfl Free.walk.reconcileWithDisk.told
  | clearAll => exact hquiet rfl Free.walk.clearAll.told
  | externalLoss name => exact hquiet rfl (Free.disk _).told
  | fetchChunkRange => exact hquiet rfl (fetchChunkRange_told ..)
  | servePeerChunk => exact hquiet rfl (servePeerChunk_told ..)
  | fetchRange mount blob o n size =>
      exact hquiet rfl (Free.walk.fetchRange mount blob o n size).told
  | chunkTask =>
      apply hquiet rfl
      refine Told.bind (fetchChunkRange_told ..) ?_
      intro r l' _
      cases r with
      | ok b => exact Told.pure trivial
      | error e => exact Told.pure trivial
  | prefetchTask =>
      apply hquiet rfl
      refine Told.bind (fetchChunkInner_given ..) ?_
      intro r l' _
      exact Told.pure trivial
  | insertTask key data => exact hquiet rfl (insertTask_told key data)
  | insertReceivedChunk key data =>
      exact hquiet rfl ((spawnInsert_given key data).mono fun _ _ _ => trivial)
  | rebuildWork => exact hquiet rfl Free.walk.rebuildWork.told
  | bloomRebuildTick => exact hquiet rfl Free.walk.bloomRebuildTick.told
  | clearLocalState => exact hquiet rfl Free.walk.clearLocalState.told

end BlobCache.Node
