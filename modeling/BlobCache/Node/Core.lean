import BlobCache.Node.Files
import BlobCache.Node.RequestSpecs
import BlobCache.Node.Slots

/-!
The invariant of a running node, for any idea of what a good value is: the
directory, the singleflight map and the two stores in memory hold good values
only, in every state that any interleaving of jobs can reach. The condition on
runs says what the environment may do: which jobs it starts, what peers and
the origin answer, and whether system calls fail.
-/

namespace BlobCache.Node

open Cache Conc

variable {cfg : NodeConfig} {env : Env cfg}

/-- The values that the fetcher keeps in memory. -/
structure Stores (env : Env cfg) (f : FetchState) : Prop where
  writes : ∀ k d, f.inflightWrites.get? k = some d → env.good k d
  lru : ∀ lru, f.peerLru = some lru → ∀ k d, lru.inner.get? k = some d → env.good k d

theorem Stores.congr {f f' : FetchState} (h : Stores env f)
    (hwrites : f'.inflightWrites = f.inflightWrites) (hlru : f'.peerLru = f.peerLru) :
    Stores env f' :=
  ⟨by rw [hwrites]; exact h.writes, by rw [hlru]; exact h.lru⟩

theorem closeSlot_stores {f : FetchState} (h : Stores env f) (t : Nat) (key : ChunkKey)
    (msg : List Message) (cause : Closing) :
    Stores env ((f.disarm t).closeSlot key msg cause) := by
  unfold FetchState.closeSlot
  split <;> exact h.congr rfl rfl

theorem dropGuard_stores {f : FetchState} (h : Stores env f) (t : Nat) :
    Stores env (f.dropGuard t) := by
  unfold FetchState.dropGuard
  split
  · exact h
  · exact closeSlot_stores h t _ _ _

theorem Stores.exec {f f' : FetchState} {t : Nat} {l : Loc} (h : Stores env f) {rdma : Bool}
    {c : FetchChoice} {o : FetchOp} {r : o.Resp} (hpre : fetchPre env l o)
    (hex : f.exec rdma t c o = some (r, f')) : Stores env f' := by
  cases o with
  | writesInsert key data =>
      cases hex
      refine ⟨fun k d hk => ?_, h.lru⟩
      simp only [FinMap.get?_insert] at hk
      split at hk
      · rename_i hkey
        cases hk
        exact hkey ▸ hpre.1
      · exact h.writes k d hk
  | writesRemove key =>
      cases hex
      refine ⟨fun k d hk => ?_, h.lru⟩
      simp only [FinMap.get?_erase] at hk
      split at hk
      · cases hk
      · exact h.writes k d hk
  | writesClear =>
      cases hex
      exact ⟨by simp, h.lru⟩
  | waitDrained =>
      simp only [FetchState.exec] at hex
      split at hex <;> cases hex
      exact h
  | lruGet key =>
      simp only [FetchState.exec, FetchState.lruGet] at hex
      split at hex
      · cases hex
        exact h
      · rename_i lru hlru
        cases hex
        refine ⟨h.writes, ?_⟩
        intro lru' hlru' k d hk
        cases hlru'
        rw [PeerLru.get_get?] at hk
        exact h.lru lru hlru k d hk
  | lruPut key data =>
      cases hex
      refine ⟨h.writes, ?_⟩
      intro lru' hlru' k d hk
      obtain ⟨lru, hlru, rfl⟩ := Option.map_eq_some_iff.mp hlru'
      rcases PeerLru.put_get? hk with ⟨rfl, rfl⟩ | hold
      · exact hpre.1
      · exact h.lru lru hlru k d hold
  | lruClear =>
      cases hex
      refine ⟨h.writes, ?_⟩
      intro lru' hlru' k d hk
      obtain ⟨lru, hlru, rfl⟩ := Option.map_eq_some_iff.mp hlru'
      simp [PeerLru.clear] at hk
  | inflightEntry key =>
      simp only [FetchState.exec, FetchState.inflightEntry] at hex
      split at hex <;> cases hex <;> exact h.congr rfl rfl
  | recv i timed =>
      simp only [FetchState.exec] at hex
      split at hex
      · cases hex
        exact h
      · obtain ⟨r', -, hr'⟩ := Option.map_eq_some_iff.mp hex
        cases hr'
        exact h
  | finishLeader key msg | unknownMount key =>
      cases hex
      exact closeSlot_stores h t _ _ _
  | recordInsertFailure key err =>
      cases hex
      refine h.congr ?_ ?_ <;> unfold FetchState.recordInsertFailure <;> split <;> rfl
  | _ =>
      cases hex
      exact h.congr rfl rfl

/-- What a condition on runs has to say about the environment. -/
structure Respects (env : Env cfg) (G : State → Event (machine cfg) → Prop) : Prop where
  start : ∀ s j, G s (.start j) → j.external = true → env.jobOk j
  disk : ∀ s t o (c : Choice), G s (.op t (.disk o) c) →
    env.ioErr ∨ diskSucceeds o (s.disk.exec cfg.disk t c.disk o).1
  peer : env.net → ∀ s t req (c : Choice), G s (.op t (.fetch (.peerFetch req)) c) →
    ∀ d, c.fetch.peer = .ok d → env.good req.key d ∧ env.peerHit
  origin : env.net → ∀ s t key (c : Choice), G s (.op t (.fetch (.getRecv key)) c) →
    (∀ d, c.fetch.origin = .ok d → env.good key d) ∧
      ∀ e, c.fetch.origin = .error e → env.originErr

/-- What the environment may do in one operation. -/
def Env.opAllowed (env : Env cfg) (s : State) (t : Nat) (o : Op) (c : Choice) : Prop :=
  match o with
  | .disk o => env.ioErr ∨ diskSucceeds o (s.disk.exec cfg.disk t c.disk o).1
  | .fetch (.peerFetch req) => ∀ d, c.fetch.peer = .ok d → env.good req.key d ∧ env.peerHit
  | .fetch (.getRecv key) =>
      (∀ d, c.fetch.origin = .ok d → env.good key d) ∧
        ∀ e, c.fetch.origin = .error e → env.originErr
  | _ => True

/-- The runs that the assumptions admit. -/
def Env.allowed (env : Env cfg) (s : State) : Event (machine cfg) → Prop
  | .start j => env.jobOk j
  | .op t o c => env.opAllowed s t o c
  | _ => True

theorem Env.allowed_respects {G : State → Event (machine cfg) → Prop}
    (hG : ∀ s e, G s e → env.allowed s e) : Respects env G where
  start s j hg _ := hG s (.start j) hg
  disk s t o c hg := hG s (.op t (.disk o) c) hg
  peer _ s t req c hg := hG s (.op t (.fetch (.peerFetch req)) c) hg
  origin _ s t key c hg := hG s (.op t (.fetch (.getRecv key)) c) hg

/-- What the fetcher's operations may answer. -/
theorem fetchAllows_of_exec {G : State → Event (machine cfg) → Prop} (hG : Respects env G)
    {s : State} {locs : Nat → Option Loc} {t : Nat} {l : Loc} {o : FetchOp} {c : Choice}
    {r : o.Resp} {f' : FetchState} (hslots : Slots env s.fetch locs)
    (hstores : Stores env s.fetch) (ht : locs t = some l) (hpre : fetchPre env l o)
    (hg : G s (.op t (.fetch o) c)) (hex : s.fetch.exec cfg.rdma t c.fetch o = some (r, f')) :
    fetchAllows env l o r := by
  cases o with
  | writesGet key =>
      cases hex
      exact fun d hd => hstores.writes key d hd
  | lruGet key =>
      simp only [FetchState.exec, FetchState.lruGet] at hex
      split at hex
      · cases hex
        simp [fetchAllows]
      · rename_i lru hlru
        cases hex
        exact fun d hd => hstores.lru lru hlru key d (PeerLru.get_hit hd)
  | recv i timed =>
      intro key hrx d hd
      subst hd
      obtain ⟨slot, hi, hkey, -⟩ := hslots.waits t l key i ht hrx
      simp only [FetchState.exec] at hex
      split at hex
      · cases hex
      · obtain ⟨r', hr', heq⟩ := Option.map_eq_some_iff.mp hex
        cases heq
        exact hkey ▸ hslots.delivers hi hr'
  | peerFetch req =>
      cases hex
      intro d hd
      unfold FetchState.peerReply at hd
      split at hd
      · cases hd
      · exact hG.peer hpre.1 s t req c hg d hd
  | getRecv key =>
      cases hex
      obtain ⟨hok, herr⟩ := hG.origin hpre.1 s t key c hg
      cases hr : c.fetch.origin with
      | ok d => exact hok d hr
      | error e => exact herr e hr
  | _ => trivial

/-- The local states of the threads that exist. -/
def locsOf (ws : Views (discipline env)) (t : Nat) : Option Loc :=
  match ws t with
  | none => none
  | some v => some v.loc

def filesOf (ws : Views (discipline env)) (t : Nat) : FileUse :=
  match ws t with
  | none => .idle
  | some v => v.loc.file

section Views

variable {ws : Views (discipline env)} {t : Nat} {v : View (discipline env)}

theorem locsOf_eq (hv : ws t = some v) : locsOf ws t = some v.loc := by
  unfold locsOf
  rw [hv]
  rfl

theorem locsOf_none (ht : ws t = none) : locsOf ws t = none := by
  unfold locsOf
  rw [ht]

theorem view_of_locsOf {l : Loc} (hl : locsOf ws t = some l) : ∃ v, ws t = some v ∧ v.loc = l := by
  unfold locsOf at hl
  split at hl
  · cases hl
  · rename_i v hv
    exact ⟨v, hv, Option.some.inj hl⟩

theorem filesOf_eq (hv : ws t = some v) : filesOf ws t = Loc.file v.loc := by
  unfold filesOf
  rw [hv]

variable (ws t v)

theorem locsOf_update :
    locsOf (Function.update ws t (some v)) = Function.update (locsOf ws) t (some v.loc) := by
  funext u
  by_cases hut : u = t
  · subst hut
    simp [locsOf]
  · simp [locsOf, hut]

theorem filesOf_update :
    filesOf (Function.update ws t (some v)) = Function.update (filesOf ws) t v.loc.file := by
  funext u
  by_cases hut : u = t
  · subst hut
    simp [filesOf]
  · simp [filesOf, hut]

end Views

structure Core (env : Env cfg) (s : State) (ws : Views (discipline env)) : Prop where
  files : Files env s.disk (filesOf ws)
  slots : Slots env s.fetch (locsOf ws)
  stores : Stores env s.fetch
  job : ∀ t v, ws t = some v → v.loc.job = v.job ∧ env.jobOk v.job

namespace Core

variable {s : State} {ws : Views (discipline env)} {t : Nat} {v v' : View (discipline env)}

/-- A thread moves on without touching a file or a slot. -/
theorem move {s' : State} (h : Core env s ws) (hv : ws t = some v) (hdisk : s'.disk = s.disk)
    (hfetch : s'.fetch = s.fetch) (hjob : v'.job = v.job) (hl : Loc.Later v.loc v'.loc)
    (hfile : Loc.file v'.loc = Loc.file v.loc) (hlead : Loc.lead v'.loc = Loc.lead v.loc)
    (hrx : Loc.rx v'.loc = Loc.rx v.loc) (hheard : Loc.heard v'.loc = Loc.heard v.loc) :
    Core env s' (Function.update ws t (some v')) := by
  refine ⟨?_, ?_, ?_, ?_⟩
  · rw [hdisk, filesOf_update, hfile]
    rw [Function.update_eq_self_iff.mpr (filesOf_eq hv).symm]
    exact h.files
  · rw [hfetch, locsOf_update]
    exact h.slots.move rfl rfl rfl (locsOf_eq hv) hl hlead (fun x hx => hrx ▸ hx)
      (fun k i r hk => .inl (hheard ▸ hk))
  · rw [hfetch]
    exact h.stores
  · refine Views.forall_update h.job ⟨hl.job.trans ((h.job t v hv).1.trans hjob.symm), ?_⟩
    rw [hjob]
    exact (h.job t v hv).2

theorem birth (h : Core env s ws) (ht : ws t = none) {j : Job} (hok : env.jobOk j)
    (parent : Option Nat) :
    Core env s (Function.update ws t (some ⟨j, parent, (discipline env).init j⟩)) := by
  refine ⟨?_, ?_, h.stores, Views.forall_update h.job ⟨rfl, hok⟩⟩
  · rw [filesOf_update]
    exact h.files.letGo FileUse.free_idle
  · rw [locsOf_update]
    exact h.slots.birth (locsOf_none ht) rfl rfl rfl

theorem op {G : State → Event (machine cfg) → Prop} (hG : Respects env G)
    {o : Op} {c : Choice} {r : o.Resp} {s' : State} (h : Core env s ws) (hv : ws t = some v)
    (hpre : (discipline env).pre v.loc o) (hg : G s (.op t o c))
    (hex : exec cfg t o c s = some (r, s')) :
    (discipline env).allows v.loc o r ∧
      Core env s' (Function.update ws t (some (v.next o r))) := by
  cases o with
  | disk o =>
      obtain ⟨hd, -, hf⟩ := exec_disk hex
      have hio := hG.disk s t o c hg
      rw [hd] at hio
      obtain ⟨hallow, hfiles⟩ := h.files.exec (filesOf_eq hv) c.disk o hpre (by rw [hd]; exact hio)
      rw [hd] at hallow hfiles
      obtain ⟨file, hnext⟩ := diskNext_eq v.loc o r
      have hl : Loc.Later v.loc (diskNext v.loc o r) := by
        rw [hnext]
        exact ⟨rfl, id⟩
      refine ⟨hallow, ?_, ?_, hf ▸ h.stores,
        Views.forall_update h.job ⟨hl.job.trans (h.job t v hv).1, (h.job t v hv).2⟩⟩
      · rw [filesOf_update]
        exact hfiles
      · rw [locsOf_update, hf]
        change Slots env s.fetch (Function.update _ t (some (diskNext v.loc o r)))
        refine h.slots.move rfl rfl rfl (locsOf_eq hv) hl ?_ ?_ ?_ <;> rw [hnext]
        · exact fun _ hx => hx
        · exact fun _ _ _ hk => .inl hk
  | index o =>
      obtain ⟨-, hdisk, hfetch⟩ := exec_index hex
      obtain ⟨snap, pushed, noted, hnext⟩ := indexNext_eq v.loc o r
      have hloc : (v.next (.index o) r).loc = _ := hnext
      refine ⟨trivial, h.move hv hdisk hfetch rfl ?_ ?_ ?_ ?_ ?_⟩ <;> rw [hloc]
      exact ⟨rfl, id⟩
  | fetch o =>
      obtain ⟨hf, hdisk, -⟩ := exec_fetch hex
      obtain ⟨lead, asked, stored, rx, heard, hnext⟩ := fetchNext_eq v.loc o r
      have hjob : Loc.job (fetchNext v.loc o r) = Loc.job v.loc := by rw [hnext]
      have hfile : Loc.file (fetchNext v.loc o r) = Loc.file v.loc := by rw [hnext]
      refine ⟨fetchAllows_of_exec hG h.slots h.stores (locsOf_eq hv) hpre hg hf, ?_, ?_,
        h.stores.exec hpre hf,
        Views.forall_update h.job ⟨hjob.trans (h.job t v hv).1, (h.job t v hv).2⟩⟩
      · rw [filesOf_update, hdisk]
        change Files env s.disk (Function.update _ t (Loc.file (fetchNext v.loc o r)))
        rw [hfile, Function.update_eq_self_iff.mpr (filesOf_eq hv).symm]
        exact h.files
      · rw [locsOf_update]
        exact h.slots.exec (locsOf_eq hv) hpre hf
  | snapshotKeys =>
      obtain ⟨-, hdisk, hfetch, -⟩ := exec_snapshotKeys hex
      exact ⟨trivial, h.move hv hdisk hfetch rfl ⟨rfl, id⟩ rfl rfl rfl rfl⟩

theorem spawn {u : Nat} {j : Job} (h : Core env s ws) (hv : ws t = some v) (hu : ws u = none)
    (hok : env.jobOk j) :
    Core env s (Function.update (Function.update ws t (some (v.spawned ⟨u, j⟩))) u
      (some ⟨j, some t, (discipline env).init j⟩)) := by
  have hmove : Core env s (Function.update ws t (some (v.spawned ⟨u, j⟩))) :=
    h.move hv rfl rfl rfl ⟨rfl, id⟩ rfl rfl rfl rfl
  have hut : u ≠ t := by
    rintro rfl
    rw [hv] at hu
    cases hu
  exact hmove.birth (by simpa [hut] using hu) hok (some t)

theorem cancel (h : Core env s ws) (hv : ws t = some v) :
    Core env { s with fetch := s.fetch.dropGuard t } (Function.update ws t (some v.dead)) := by
  refine ⟨?_, ?_, dropGuard_stores h.stores t, Views.forall_update h.job (h.job t v hv)⟩
  · rw [filesOf_update]
    change Files env s.disk (Function.update _ t (Loc.file v.loc))
    rw [Function.update_eq_self_iff.mpr (filesOf_eq hv).symm]
    exact h.files
  · rw [locsOf_update]
    exact h.slots.cancel (locsOf_eq hv)

end Core

/-- The programs keep to the discipline, and every step of the machine keeps
the invariant. -/
theorem core_sound {G : State → Event (machine cfg) → Prop} (hG : Respects env G) :
    Sound (discipline env) G (Core env) where
  body j hok := body_spec j hok
  start h ht hext hg := ⟨hG.start _ _ hg hext, h.birth ht (hG.start _ _ hg hext) none⟩
  op h hv hpre hg hex := h.op hG hv hpre hg hex
  spawn h hv hu hok _ _ := h.spawn hv hu hok
  join h hv _ _ _ := h.move hv rfl rfl rfl ⟨rfl, id⟩ rfl rfl rfl rfl
  lost h hv _ _ _ := h.move hv rfl rfl rfl ⟨rfl, id⟩ rfl rfl rfl rfl
  cancel h hv _ _ := h.cancel hv

/-- A state in which nothing runs and what is stored is good. -/
structure Settled (env : Env cfg) (s : State) : Prop where
  inode : ∀ n fd, s.disk.dir.names.get? n = some fd → fd < s.disk.dir.inodes.length
  chunk : ∀ k ∈ env.keys, ∀ d, s.disk.dir.file (cfg.disk.nameOf k) = some d → env.good k d
  fresh : ∀ n q, s.disk.tmpSeq ≤ q → s.disk.dir.names.get? (tmpName cfg.pid n q) = none
  stores : Stores env s.fetch
  inflight : ∀ k, s.fetch.inflight.get? k = none
  slots : s.fetch.slots = []
  guards : ∀ t, s.fetch.guards.get? t = none

theorem Settled.core {s : State} (h : Settled env s) : Core env s fun _ => none where
  files :=
    { inode := h.inode
      chunk := fun k hk fd hfd => h.chunk k hk _ (by simp [Dir.file, hfd])
      fresh := h.fresh
      thread := fun _ => trivial
      apart := fun _ _ _ => .of_free FileUse.free_idle }
  slots :=
    { guard := h.guards
      present := fun k i hk => by simp [h.inflight k] at hk
      gone := fun i slot hi => by simp [h.slots] at hi
      waits := fun t l k i hl => by cases hl
      heard := fun t l k i r hl => by cases hl }
  stores := h.stores
  job := fun t v hv => by cases hv

theorem Settled.new (env : Env cfg) : Settled env (State.new cfg) where
  inode n fd hn := by simp [State.new, Disk.opened, Dir.empty] at hn
  chunk k hk d hd := by simp [State.new, Disk.opened, Dir.empty, Dir.file] at hd
  fresh n q hq := by simp [State.new, Disk.opened, Dir.empty]
  stores := by
    refine ⟨fun k d hk => by simp [State.new, FetchState.new] at hk, ?_⟩
    intro lru hlru k d hk
    simp only [State.new, FetchState.new] at hlru
    split at hlru
    · cases hlru
      simp [PeerLru.new] at hk
    · cases hlru
  inflight k := by simp [State.new, FetchState.new]
  slots := rfl
  guards t := by simp [State.new, FetchState.new]

/-- In every configuration that can be reached, the threads have local states
under which the invariant holds. -/
theorem core_reach {G : State → Event (machine cfg) → Prop} (hG : Respects env G) {s0 : State}
    (h0 : Settled env s0) {c : Config (machine cfg)} (h : Config.Reach G (Config.init s0) c) :
    ∃ ws, Agree (discipline env) c.threads ws ∧ Core env c.state ws :=
  (core_sound hG).reach h0.core h

/-- Whoever leads a key has not come to an end. -/
theorem running_of_lead {c : Config (machine cfg)} {ws : Views (discipline env)} {t : Nat}
    {l : Loc} {k : ChunkKey} (hA : Agree (discipline env) c.threads ws)
    (hl : locsOf ws t = some l) (hlead : l.lead = some k) :
    ∃ th p, c.threads[t]? = some th ∧ th.status = .running p := by
  obtain ⟨v, hv, rfl⟩ := view_of_locsOf hl
  obtain ⟨th, hth, hok⟩ := hA.of_view hv
  have hstatus := hok.status
  cases hst : th.status with
  | running p => exact ⟨th, p, hth, hst⟩
  | done x =>
      rw [hst] at hstatus
      obtain ⟨-, hquiet, -⟩ := hstatus
      rw [hquiet.lead] at hlead
      cases hlead
  | cancelled =>
      rw [hst] at hstatus
      obtain ⟨l', hl'⟩ := hstatus
      rw [hl'] at hlead
      cases hlead

/-- What a finished job returned. -/
theorem value_of_done {s : State} {c : Config (machine cfg)} {ws : Views (discipline env)}
    {t : Nat} {j : Job} {v : Val} (hA : Agree (discipline env) c.threads ws)
    (hC : Core env s ws) (hjob : c.job t = some j) (hdone : c.result t = some v) :
    ∃ l, locsOf ws t = some l ∧ l.job = j ∧ env.jobOk j ∧ env.valueOk l j v := by
  obtain ⟨th, ht, hj, hst⟩ := Config.thread_of_result hjob hdone
  obtain ⟨w, hw, hok⟩ := hA.thread t th ht
  have hpost : (discipline env).post w.job v w.loc := by
    have hstatus := hok.status
    rw [hst] at hstatus
    exact hstatus
  obtain ⟨hloc, -, -, hval⟩ := hpost
  have hwj : w.job = j := hok.job.symm.trans hj
  rw [hwj] at hloc hval
  exact ⟨w.loc, locsOf_eq hw, hloc, hwj ▸ (hC.job t w hw).2, hval⟩

end BlobCache.Node
