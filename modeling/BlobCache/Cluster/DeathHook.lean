import BlobCache.Conc.Protocol
import BlobCache.Cluster.Deaths

/-!
What becomes of a peer's Bloom filter when the peer dies. `sweep` records the states
under the write lock and then calls `on_peer_dead` for the peers that it found newly
dead; `merge` records what gossip says and calls nothing. Any number of these run at
once, at whatever seconds they read from the clock, while other tasks pull and drop
filters. `main` sets the hook to `drop_remote` before any of them runs.

The state keeps a log of the deaths, the calls of the hook and the filters taken in; no
operation reads it.
-/

namespace BlobCache.Cluster.Deaths

open Conc

/-! ## The tasks -/

deriving instance DecidableEq for RemoteBloom

inductive Entry where
  | died (task : Nat) (id : String)
  | fired (task : Nat) (id : String)
  | ingested (id : String) (filter : RemoteBloom)
  deriving DecidableEq

structure State where
  membership : Membership
  index : PeerIndex
  log : List Entry

def State.new (cfg : PeerIndexConfig) (me : NodeInfo) (stats : ClusterStats) : State :=
  ⟨.new me stats, .new cfg, []⟩

/-- The lock sections of the membership, the hook, and an operation on the index. -/
inductive Op where
  | unixNow
  | merge (now : Nat) (incoming : List NodeInfo)
  | touchPeer (now : Nat) (id : String)
  | sweep (now : Nat)
  | onPeerDead (id : String)
  | index (o : IndexOp)

def Op.Resp : Op → Type
  | .unixNow => Nat
  | .sweep _ => List String
  | .index o => o.Resp
  | .merge _ _ | .touchPeer _ _ | .onPeerDead _ => Unit

/-- What an operation on the index takes in. -/
def ingested : (o : IndexOp) → o.Resp → List Entry
  | .ingestRemote peerId version bytes, true =>
      (Bloom.fromBytes bytes).toList.map fun bloom => .ingested peerId ⟨version, bloom⟩
  | _, _ => []

/-- One operation of task `t`; the environment says what the clock shows. The newest
entry of the log is in front. -/
def exec (cfg : PeerIndexConfig) (t : Nat) (o : Op) (now : Nat) (s : State) :
    Option (o.Resp × State) :=
  match o with
  | .unixNow => some (now, s)
  | .merge now incoming =>
      let deaths := Membership.mergeDeaths now s.membership incoming
      some ((), { s with
        membership := s.membership.merge now incoming
        log := deaths.reverse.map (.died t) ++ s.log })
  | .touchPeer now id =>
      let m := s.membership.touchPeer now id
      let deaths := Membership.deathOf s.membership m id
      some ((), { s with membership := m, log := deaths.map (.died t) ++ s.log })
  | .sweep now =>
      let deaths := s.membership.sweepDeaths now
      some (s.membership.newlyDead now, { s with
        membership := s.membership.sweep now
        log := deaths.reverse.map (.died t) ++ s.log })
  | .onPeerDead id =>
      some ((), { s with
        index := (s.index.exec cfg t (.dropRemote id)).2
        log := .fired t id :: s.log })
  | .index o =>
      let (r, index) := s.index.exec cfg t o
      some (r, { s with index := index, log := ingested o r ++ s.log })

inductive Job where
  | merge (incoming : List NodeInfo)
  | touchPeer (id : String)
  | sweep
  | index (o : IndexOp)
  deriving DecidableEq

def effect : Effect := ⟨Op, Op.Resp, Job, Unit⟩

instance : DecidableEq effect.Job := inferInstanceAs (DecidableEq Job)

def perform (o : Op) : Program effect o.Resp := Program.perform (E := effect) o

/-- The loop at the end of `sweep`. -/
def fireAll : List String → Program effect Unit
  | [] => return ()
  | id :: newlyDead => do
      perform (.onPeerDead id)
      fireAll newlyDead

def body : Job → Program effect Unit
  | .merge incoming => do
      let now : Nat ← perform .unixNow
      perform (.merge now incoming)
  | .touchPeer id => do
      let now : Nat ← perform .unixNow
      perform (.touchPeer now id)
  | .sweep => do
      let now : Nat ← perform .unixNow
      let newlyDead : List String ← perform (.sweep now)
      fireAll newlyDead
  | .index o => do
      let _ ← perform (.index o)
      return ()

/-- None of these functions awaits, so none is cancelled. -/
def machine (cfg : PeerIndexConfig) : Machine effect where
  State := State
  Choice := Nat
  exec := exec cfg
  body := body
  external _ := true
  cancellable _ _ := false
  onCancel _ s := s

/-- The log misses no death: when an operation finds a peer in another state and leaves it
dead, it has written that down. -/
theorem died_of_exec {cfg : PeerIndexConfig} {t : Nat} {o : Op} {ch : Nat} {r : o.Resp}
    {s s' : State} {id : String} {old new : NodeInfo} (hexec : exec cfg t o ch s = some (r, s'))
    (hid : id ≠ s.membership.meId) (hold : s.membership.members.get? id = some old)
    (halive : old.state ≠ .dead) (hnew : s'.membership.members.get? id = some new)
    (hdead : new.state = .dead) : ∃ added, s'.log = added ++ s.log ∧ .died t id ∈ added := by
  have hsame (h : s'.membership = s.membership) : False := by
    rw [h, hold] at hnew
    cases hnew
    exact halive hdead
  cases o with
  | unixNow | onPeerDead peer | index o =>
      cases hexec
      exact (hsame rfl).elim
  | merge now incoming =>
      cases hexec
      refine ⟨_, rfl, List.mem_map_of_mem (List.mem_reverse.mpr ?_)⟩
      exact Membership.mem_mergeDeaths hid hold halive hnew hdead
  | touchPeer now peer =>
      cases hexec
      by_cases hpeer : id = peer
      · subst hpeer
        refine ⟨_, rfl, List.mem_map_of_mem ?_⟩
        exact Membership.mem_deathOf.mpr ⟨rfl, hid, old, new, hold, hnew, halive, hdead⟩
      · have hother : old.id ≠ peer := by
          rw [id_of_get? hold]
          exact hpeer
        change (s.membership.touchPeer now peer).members.get? id = some new at hnew
        rw [Membership.touchPeer_get?, hold] at hnew
        cases hnew
        exact absurd (by simpa [Membership.touched, hother] using hdead) halive
  | sweep now =>
      cases hexec
      refine ⟨_, rfl, List.mem_map_of_mem (List.mem_reverse.mpr ?_)⟩
      exact Membership.mem_sweepDeaths hid hold halive hnew hdead

/-! ## What a task owes -/

/-- A task has to call the hook for the peers in the list. -/
def owes (owed : List String) : Op → Prop
  | .onPeerDead id => ∃ rest, owed = id :: rest
  | _ => owed = []

def owedAfter (owed : List String) : (o : Op) → o.Resp → List String
  | .sweep _, newlyDead => newlyDead
  | .onPeerDead id, _ => owed.erase id
  | _, _ => owed

def protocol (cfg : PeerIndexConfig) : Protocol (machine cfg) where
  Local := List String
  init _ := []
  jobOk _ := True
  pre := owes
  allows _ _ _ := True
  next := owedAfter
  spawnPre _ _ := False
  spawned l _ := l
  joined l _ _ := l
  post _ _ l := l = []
  dead l := l

theorem fireAll_sat (cfg : PeerIndexConfig) (ids : List String) :
    (fireAll ids).Sat (protocol cfg) ids fun _ l => l = [] := by
  induction ids with
  | nil => rfl
  | cons id ids ih =>
      refine ⟨⟨ids, rfl⟩, ?_⟩
      intro _ _
      change (fireAll ids).Sat (protocol cfg) ((id :: ids).erase id) _
      rw [List.erase_cons_head]
      exact ih

theorem body_sat (cfg : PeerIndexConfig) (j : Job) :
    (body j).Sat (protocol cfg) [] fun _ l => l = [] := by
  cases j with
  | merge incoming | touchPeer id => exact ⟨rfl, fun _ _ => ⟨rfl, fun _ _ => rfl⟩⟩
  | sweep => exact ⟨rfl, fun _ _ => ⟨rfl, fun newlyDead _ => fireAll_sat cfg newlyDead⟩⟩
  | index o => exact ⟨rfl, fun _ _ => rfl⟩

/-! ## The log -/

/-- The property holds of every death in the log and of what comes after it. -/
def EachDeath (log : List Entry) (P : Nat → String → List Entry → Prop) : Prop :=
  ∀ later t id earlier, log = later ++ .died t id :: earlier → P t id later

/-- More entries come. -/
theorem EachDeath.append {log new : List Entry} {P Q : Nat → String → List Entry → Prop}
    (h : EachDeath log P) (hold : ∀ t id later, P t id later → Q t id (new ++ later))
    (hnew : EachDeath new Q) : EachDeath (new ++ log) Q := by
  intro later t id earlier hsplit
  rcases List.append_eq_append_iff.mp hsplit with ⟨later', rfl, hlog⟩ | ⟨rest, hnew', hrest⟩
  · exact hold t id later' (h later' t id earlier hlog)
  · cases rest with
    | nil =>
        rw [List.append_nil] at hnew'
        subst hnew'
        have hlast := hold t id [] (h [] t id earlier hrest.symm)
        rw [List.append_nil] at hlast
        exact hlast
    | cons e rest =>
        rw [List.cons_append] at hrest
        cases hrest
        exact hnew later t id rest hnew'

theorem eachDeath_of_no_death {new : List Entry} {P : Nat → String → List Entry → Prop}
    (h : ∀ t id, .died t id ∉ new) : EachDeath new P := by
  rintro later t id earlier rfl
  exact absurd (List.mem_append_right _ List.mem_cons_self) (h t id)

theorem died_not_mem_ingested (o : IndexOp) (r : o.Resp) (t : Nat) (id : String) :
    .died t id ∉ ingested o r := by
  intro hmem
  unfold ingested at hmem
  split at hmem
  · obtain ⟨_, -, hentry⟩ := List.mem_map.mp hmem
    cases hentry
  · cases hmem

/-- A filter that the index holds after an operation was there before or is taken in. -/
theorem remote_of_exec {cfg : PeerIndexConfig} {t : Nat} {p : PeerIndex} {o : IndexOp}
    {id : String} {filter : RemoteBloom}
    (h : (p.exec cfg t o).2.remote.get? id = some filter) :
    p.remote.get? id = some filter ∨ .ingested id filter ∈ ingested o (p.exec cfg t o).1 := by
  by_cases ho : ∃ version bytes, o = .ingestRemote id version bytes
  · obtain ⟨version, bytes, rfl⟩ := ho
    simp only [PeerIndex.exec, PeerIndex.ingestRemote] at h ⊢
    split at h
    · rename_i bloom hbytes
      simp only [FinMap.get?_insert, if_true] at h
      cases h
      right
      simp [ingested, hbytes]
    · exact .inl h
  · rw [PeerIndex.exec_remote cfg t p id fun version bytes heq => ho ⟨version, bytes, heq⟩] at h
    split at h
    · cases h
    · exact .inl h

/-! ## The invariant -/

/-- After a death the hook was called by the task that caused it, and a filter of the peer
that is in the index was taken in since. -/
def Settled (index : PeerIndex) (t : Nat) (id : String) (later : List Entry) : Prop :=
  .fired t id ∈ later ∧
    ∀ filter, index.remote.get? id = some filter → .ingested id filter ∈ later

/-- More entries, and no filter from elsewhere. -/
theorem Settled.append {index index' : PeerIndex} {t : Nat} {id : String}
    {new later : List Entry} (h : Settled index t id later)
    (hindex : ∀ filter, index'.remote.get? id = some filter →
      index.remote.get? id = some filter ∨ .ingested id filter ∈ new) :
    Settled index' t id (new ++ later) := by
  constructor
  · exact List.mem_append_right _ h.1
  · intro filter hfilter
    rcases hindex filter hfilter with hbefore | hnew
    · exact List.mem_append_right _ (h.2 filter hbefore)
    · exact List.mem_append_left _ hnew

section Invariant

variable {cfg : PeerIndexConfig} {G : State → Event (machine cfg) → Prop}

def owed (v : View (protocol cfg)) : List String := v.loc

/-- Every death is settled, or its task still owes the call. -/
def Inv (cfg : PeerIndexConfig) (s : State) (ws : Views (protocol cfg)) : Prop :=
  EachDeath s.log fun t id later =>
    ∃ v, ws t = some v ∧ (id ∈ owed v ∨ Settled s.index t id later)

/-- A task goes on: it pays what it no longer owes, and owes for the deaths it causes. -/
theorem Inv.advance {s s' : State} {ws : Views (protocol cfg)} {t : Nat}
    {v v' : View (protocol cfg)} (h : Inv cfg s ws) (hv : ws t = some v) (new : List Entry)
    (hlog : s'.log = new ++ s.log)
    (hindex : ∀ id filter, s'.index.remote.get? id = some filter →
      s.index.remote.get? id = some filter ∨ .ingested id filter ∈ new)
    (hpaid : ∀ id later, id ∈ owed v → id ∈ owed v' ∨ Settled s'.index t id (new ++ later))
    (hdied : ∀ u id, .died u id ∈ new → u = t ∧ id ∈ owed v') :
    Inv cfg s' (Function.update ws t (some v')) := by
  unfold Inv
  rw [hlog]
  refine EachDeath.append h ?_ ?_
  · rintro u id later ⟨w, hw, hopen⟩
    by_cases hu : u = t
    · subst hu
      cases hv.symm.trans hw
      refine ⟨v', Function.update_self .., ?_⟩
      rcases hopen with howed | hsettled
      · exact hpaid id later howed
      · exact .inr (hsettled.append (hindex id))
    · refine ⟨w, (Function.update_of_ne hu ..).trans hw, ?_⟩
      rcases hopen with howed | hsettled
      · exact .inl howed
      · exact .inr (hsettled.append (hindex id))
  · rintro later u id earlier rfl
    obtain ⟨rfl, howed⟩ := hdied u id (List.mem_append_right _ List.mem_cons_self)
    exact ⟨v', Function.update_self .., .inl howed⟩

/-- An operation that causes no death, pays nothing and leaves the index. -/
theorem Inv.quiet {s s' : State} {ws : Views (protocol cfg)} {t : Nat}
    {v v' : View (protocol cfg)} (h : Inv cfg s ws) (hv : ws t = some v)
    (hlog : s'.log = s.log) (hindex : s'.index = s.index) (howed : owed v' = owed v) :
    Inv cfg s' (Function.update ws t (some v')) := by
  apply h.advance hv []
  · exact hlog
  · intro id filter hfilter
    rw [hindex] at hfilter
    exact .inl hfilter
  · intro id later hid
    rw [howed]
    exact .inl hid
  · intro u id hmem
    cases hmem

/-- A sweep owes the call for every death that it causes. -/
theorem Inv.sweep {s : State} {ws : Views (protocol cfg)} {t : Nat} {v v' : View (protocol cfg)}
    (h : Inv cfg s ws) (hv : ws t = some v) (now : Nat) (hnone : owed v = [])
    (howed : owed v' = s.membership.newlyDead now) :
    Inv cfg { s with
      membership := s.membership.sweep now
      log := (s.membership.sweepDeaths now).reverse.map (.died t) ++ s.log }
      (Function.update ws t (some v')) := by
  apply h.advance hv ((s.membership.sweepDeaths now).reverse.map (.died t))
  · rfl
  · exact fun id filter hfilter => .inl hfilter
  · intro id later hid
    rw [hnone] at hid
    cases hid
  · intro u id hmem
    obtain ⟨id', hid', hentry⟩ := List.mem_map.mp hmem
    cases hentry
    rw [howed]
    exact ⟨rfl, Membership.newlyDead_of_sweepDeaths (List.mem_reverse.mp hid')⟩

/-- A call of the hook settles the deaths of the peer that the task still owes it for. -/
theorem Inv.fire {s : State} {ws : Views (protocol cfg)} {t : Nat} {v v' : View (protocol cfg)}
    (h : Inv cfg s ws) (hv : ws t = some v) (peer : String)
    (howed : owed v' = (owed v).erase peer) :
    Inv cfg { s with
      index := (s.index.exec cfg t (.dropRemote peer)).2, log := .fired t peer :: s.log }
      (Function.update ws t (some v')) := by
  apply h.advance hv [.fired t peer]
  · rfl
  · intro id filter hfilter
    rcases remote_of_exec hfilter with hbefore | hnew
    · exact .inl hbefore
    · cases hnew
  · intro id later hid
    by_cases hpeer : id = peer
    · subst hpeer
      right
      refine ⟨List.mem_cons_self, ?_⟩
      intro filter hfilter
      change (s.index.remote.erase id).get? id = some filter at hfilter
      rw [FinMap.get?_erase, if_pos rfl] at hfilter
      cases hfilter
    · left
      rw [howed]
      exact (List.mem_erase_of_ne hpeer).mpr hid
  · intro u id hmem
    cases List.mem_singleton.mp hmem

/-- No batch that is merged kills a peer. -/
def Spared (G : State → Event (machine cfg) → Prop) : Prop :=
  ∀ s t now incoming ch, G s (.op t (.merge now incoming) ch) → s.membership.Spares incoming

theorem Inv.op {s s' : State} {ws : Views (protocol cfg)} {t : Nat} {v : View (protocol cfg)}
    {o : Op} {ch : Nat} {r : o.Resp} (h : Inv cfg s ws) (hv : ws t = some v)
    (howes : owes (owed v) o)
    (hspares : ∀ now incoming, o = .merge now incoming → s.membership.Spares incoming)
    (hexec : exec cfg t o ch s = some (r, s')) :
    Inv cfg s' (Function.update ws t (some (v.next o r))) := by
  cases o with
  | unixNow =>
      cases hexec
      exact h.quiet hv rfl rfl rfl
  | merge now incoming =>
      have hnone := (Membership.mergeDeaths_eq_nil_iff now _ _).mpr (hspares now incoming rfl)
      cases hexec
      apply h.quiet hv
      · change (List.reverse _).map _ ++ s.log = s.log
        rw [hnone]
        rfl
      · rfl
      · rfl
  | touchPeer now id =>
      have hnone := Membership.deathOf_touchPeer s.membership now id
      cases hexec
      apply h.quiet hv
      · change List.map _ _ ++ s.log = s.log
        rw [hnone]
        rfl
      · rfl
      · rfl
  | sweep now =>
      cases hexec
      exact h.sweep hv now howes rfl
  | onPeerDead peer =>
      cases hexec
      exact h.fire hv peer rfl
  | index o =>
      cases hexec
      apply h.advance hv (ingested o (s.index.exec cfg t o).1)
      · rfl
      · exact fun id filter hfilter => remote_of_exec hfilter
      · exact fun id later hid => .inl hid
      · intro u id hmem
        exact absurd hmem (died_not_mem_ingested _ _ u id)

theorem sound (hG : Spared G) : Sound (protocol cfg) G (Inv cfg) where
  body j _ := body_sat cfg j
  start h hfree _ _ := by
    refine ⟨trivial, ?_⟩
    intro later t id earlier hsplit
    obtain ⟨v, hv, hopen⟩ := h later t id earlier hsplit
    exact ⟨v, update_of_free hfree hv, hopen⟩
  op h hv hpre hstep hexec :=
    ⟨trivial, h.op hv hpre (fun now incoming ho => hG _ _ now incoming _ (ho ▸ hstep)) hexec⟩
  spawn _ _ _ _ hpre _ := hpre.elim
  join h hv _ _ _ := h.quiet hv rfl rfl rfl
  lost h hv _ _ _ := h.quiet hv rfl rfl rfl
  cancel _ _ hcan _ := by cases hcan

/-- The death of a peer is over when the operation returns: it has called the hook, and
the index holds no filter of the peer from before. That goes for every run in which no
batch that is merged kills a peer, and for every death in it, whatever has become of the
peer since. -/
theorem death_settled {me : NodeInfo} {stats : ClusterStats} {c : Config (machine cfg)}
    (hG : Spared G) (hrun : Config.Reach G (.init (State.new cfg me stats)) c)
    (later : List Entry) (t : Nat) (id : String) (earlier : List Entry)
    (hdied : c.state.log = later ++ .died t id :: earlier) (hdone : c.result t = some ()) :
    .fired t id ∈ later ∧
      ∀ filter, c.state.index.remote.get? id = some filter → .ingested id filter ∈ later := by
  have hinit : Inv cfg (State.new cfg me stats) fun _ => none :=
    eachDeath_of_no_death fun _ _ hmem => absurd hmem List.not_mem_nil
  obtain ⟨ws, hagree, hinv⟩ := (sound hG).reach hinit hrun
  obtain ⟨v, hv, hopen⟩ := hinv later t id earlier hdied
  obtain ⟨th, hth, hok⟩ := hagree.of_view hv
  have hstatus := hok.status
  obtain ⟨job, parent, status⟩ := th
  cases status with
  | done x =>
      -- a task that has returned owes nothing
      have hnone : owed v = [] := hstatus
      rw [hnone] at hopen
      exact hopen.resolve_left List.not_mem_nil
  | running p | cancelled => simp [Config.result, hth] at hdone

end Invariant

def sampleIndex : PeerIndexConfig := ⟨fun _ => Vector.replicate 32 0, "a", 64⟩

/-- Version `v` of the filter of a peer that has no chunks. -/
def emptyFilter (v : Nat) : RemoteBloom := ⟨v, Bloom.new 64⟩

def pull (id : String) (v : Nat) : Job := .index (.ingestRemote id v (Bloom.new 64).toBytes)

/-- A task starts and takes so many steps, while the clock shows `now`. -/
def runs (j : Job) (t steps now : Nat) : List (Label (machine sampleIndex)) :=
  .start j :: List.replicate steps (.run t now)

/-- The peer joins and its filter is pulled; it is not heard of for a minute, and a sweep
buries it. Its filter is pulled once more. -/
def sweptRun : List (Label (machine sampleIndex)) :=
  runs (.merge [samplePeer "b" "h"]) 0 3 0 ++ runs (pull "b" 1) 1 2 0 ++ runs .sweep 2 4 61 ++
    runs (pull "b" 2) 3 2 61

/-- The records that come are not dead. -/
def bringsNoDead (e : Event (machine sampleIndex)) : Bool :=
  match e with
  | .op _ (.merge _ incoming) _ => incoming.all fun n => n.state ≠ .dead
  | _ => true

theorem spared_of_bringsNoDead :
    Spared fun (_ : State) (e : Event (machine sampleIndex)) => bringsNoDead e = true := by
  intro s t now incoming ch hbrings earlier n later hsplit _ _ hdead
  have hall : (incoming.all fun n => n.state ≠ .dead) = true := hbrings
  have hn := List.all_eq_true.mp hall n (by rw [hsplit]; simp)
  exact absurd hdead (of_decide_eq_true hn)

theorem death_settled_of_swept :
    ∃ c : Config (machine sampleIndex),
      Config.Reach (fun _ e => bringsNoDead e = true)
        (.init (State.new sampleIndex (samplePeer "a" "h") ⟨0, 0, 0, 0⟩)) c ∧
      c.state.log = [.ingested "b" (emptyFilter 2), .fired 2 "b"] ++
        .died 2 "b" :: [.ingested "b" (emptyFilter 1)] ∧
      ∀ filter, c.state.index.remote.get? "b" = some filter →
        filter = emptyFilter 2 := by
  obtain ⟨c, hrun, hc⟩ := Config.reach_of_replay (G := fun _ e => bringsNoDead e)
    (fun _ _ h => h) (.init (State.new sampleIndex (samplePeer "a" "h") ⟨0, 0, 0, 0⟩)) sweptRun
    (fun c => let s : State := c.state
      let swept : Option Unit := c.result 2
      decide (s.log = [.ingested "b" (emptyFilter 2), .fired 2 "b", .died 2 "b",
        .ingested "b" (emptyFilter 1)]) && decide (swept = some ())) (by decide +kernel)
  simp only [Bool.and_eq_true, decide_eq_true_eq] at hc
  obtain ⟨hlog, hdone⟩ := hc
  obtain ⟨-, hfilter⟩ := death_settled spared_of_bringsNoDead hrun
    [.ingested "b" (emptyFilter 2), .fired 2 "b"] 2 "b" [.ingested "b" (emptyFilter 1)] hlog hdone
  refine ⟨c, hrun, hlog, ?_⟩
  intro filter hget
  simpa using hfilter filter hget

/-- The peer joins and its filter is pulled; a peer that has buried it says so before a
sweep of this node does. -/
def mergedRun : List (Label (machine sampleIndex)) :=
  runs (.merge [samplePeer "b" "h"]) 0 3 0 ++ runs (pull "b" 1) 1 2 0 ++
    runs (.merge [{ samplePeer "b" "h" with state := .dead }]) 2 3 61 ++ runs .sweep 3 3 61

/-- A death by gossip calls no hook, and neither does the sweep after it: the filter from
before stays. -/
theorem merged_death_keeps_filter :
    ∃ c : Config (machine sampleIndex),
      Config.Reach (fun _ _ => True)
        (.init (State.new sampleIndex (samplePeer "a" "h") ⟨0, 0, 0, 0⟩)) c ∧
      c.quiescent = true ∧
      (c.state.membership.members.get? "b").map (·.state) = some .dead ∧
      c.state.log = [.died 2 "b", .ingested "b" (emptyFilter 1)] ∧
      c.state.index.remote.get? "b" = some (emptyFilter 1) := by
  obtain ⟨c, hrun, hc⟩ := Config.reach_of_labels
    (.init (State.new sampleIndex (samplePeer "a" "h") ⟨0, 0, 0, 0⟩)) mergedRun
    (fun c => let s : State := c.state
      c.quiescent && decide ((s.membership.members.get? "b").map (·.state) = some .dead) &&
        decide (s.log = [.died 2 "b", .ingested "b" (emptyFilter 1)]) &&
        decide (s.index.remote.get? "b" = some (emptyFilter 1))) (by decide +kernel)
  simp only [Bool.and_eq_true, decide_eq_true_eq] at hc
  obtain ⟨⟨⟨hquiet, hstate⟩, hlog⟩, hfilter⟩ := hc
  exact ⟨c, hrun, hquiet, hstate, hlog, hfilter⟩

end BlobCache.Cluster.Deaths
