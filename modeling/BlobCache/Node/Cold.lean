import BlobCache.Node.OneKey
import BlobCache.Node.Replay

/-!
How often the origin is asked for a cold chunk. A leader that has asked puts
the chunk into `inflight_writes` before it gives up its slot, and from there
the chunk moves to the disk. So a second leader asks again only if it takes
the slot while the chunk is already kept, which the lookups before
`inflight.entry` do not rule out.
-/

namespace BlobCache.Node

open Cache Conc

variable {cfg : NodeConfig}

/-- The chunk is on its way to the disk or there. -/
def State.kept (s : State) (k : ChunkKey) : Prop :=
  (∃ d, s.fetch.inflightWrites.get? k = some d) ∨ ∃ n, s.disk.size? k = some n

/-- The chunk is in one of the stores that requests look at. -/
def State.holds (s : State) (k : ChunkKey) : Prop :=
  s.kept k ∨ ∃ lru d, s.fetch.peerLru = some lru ∧ lru.inner.get? k = some d

def evictsNothing (cfg : NodeConfig) (s : State) : DiskOp → Prop
  | .insertSection key n => (s.disk.afterInsert cfg.disk key n).2 = []
  | _ => True

/-- One operation when no insert fails, nothing is evicted, no peer has the
chunk and the origin sends it. -/
def coldOp (cfg : NodeConfig) (data : Bytes) (s : State) (t : Nat) (o : Op) (c : Choice) : Prop :=
  match o with
  | .disk o => diskSucceeds o (s.disk.exec cfg.disk t c.disk o).1 ∧ evictsNothing cfg s o
  | .fetch (.peerFetch _) => ∀ d, c.fetch.peer ≠ .ok d
  | .fetch (.getRecv _) => c.fetch.origin = .ok data
  | _ => True

/-- Requests for one chunk with its length, undisturbed. -/
def coldStep (k : ChunkKey) (data : Bytes) (s : State) : Event (machine cfg) → Prop
  | .start j => j.asks k data.length
  | .op t o c => coldOp cfg data s t o c
  | .cancel _ => False
  | _ => True

/-- Whoever creates a slot for the chunk does so while nobody has the chunk. -/
def entersCold (k : ChunkKey) (s : State) : Event (machine cfg) → Prop
  | .op _ (.fetch (.inflightEntry key)) _ =>
      key = k → s.fetch.inflight.get? k = none → ¬ s.holds k
  | _ => True

def coldRun (k : ChunkKey) (data : Bytes) (s : State) (e : Event (machine cfg)) : Prop :=
  coldStep k data s e ∧ entersCold k s e

/-- A node on which nothing runs and which has nothing of the chunk. -/
structure Cold (cfg : NodeConfig) (k : ChunkKey) (s : State) : Prop where
  unused : s.Unused
  inode : ∀ n fd, s.disk.dir.names.get? n = some fd → fd < s.disk.dir.inodes.length
  fresh : ∀ n q, s.disk.tmpSeq ≤ q → s.disk.dir.names.get? (tmpName cfg.pid n q) = none
  inflight : ∀ k', s.fetch.inflight.get? k' = none
  slots : s.fetch.slots = []
  guards : ∀ t, s.fetch.guards.get? t = none
  file : s.disk.dir.names.get? (cfg.disk.nameOf k) = none
  absent : ¬ s.holds k
  gets : s.fetch.gets.count k = 0

theorem Cold.settled {k : ChunkKey} {s : State} (h : Cold cfg k s) (p : Bytes → Prop)
    (faults : Prop) : Settled (keyEnv cfg k p faults) s where
  inode := h.inode
  chunk k' hk' d hd := by
    rw [Set.mem_singleton_iff.mp hk', Dir.file, h.file] at hd
    cases hd
  fresh := h.fresh
  stores := by
    refine ⟨fun k' d hd hk => ?_, fun lru hlru k' d hd hk => ?_⟩
    · exact absurd (.inl (.inl ⟨d, hk ▸ hd⟩)) h.absent
    · exact absurd (.inr ⟨lru, d, hlru, hk ▸ hd⟩) h.absent
  inflight := h.inflight
  slots := h.slots
  guards := h.guards

section

variable {k : ChunkKey} {s s' : State} {t : Nat} {l : Loc}

/-- What is known of a thread that leads: it owns the slot, it is the one that
has asked, and what it has stored is kept. -/
structure LeadOk (k : ChunkKey) (s : State) (t : Nat) (l : Loc) : Prop where
  owns : ∀ key, l.lead = some key → key = k ∧ ∃ i slot,
    s.fetch.inflight.get? k = some i ∧ s.fetch.slots[i]? = some slot ∧ slot.owner = t
  count : l.lead = some k → s.fetch.gets.count k = if l.asked then 1 else 0
  stored : l.lead = some k → l.stored ≠ none → s.kept k

theorem LeadOk.of_none (h : l.lead = none) : LeadOk k s t l := by
  refine ⟨?_, ?_, ?_⟩
  · intro key hkey
    rw [h] at hkey
    cases hkey
  · intro hkey
    rw [h] at hkey
    cases hkey
  · intro hkey
    rw [h] at hkey
    cases hkey

/-- The slot has one owner. -/
theorem LeadOk.unique {t' : Nat} {l' : Loc} {key key' : ChunkKey} (h : LeadOk k s t l)
    (h' : LeadOk k s t' l') (hl : l.lead = some key) (hl' : l'.lead = some key') : t' = t := by
  obtain ⟨-, i, slot, hi, hslot, rfl⟩ := h.owns key hl
  obtain ⟨-, i', slot', hi', hslot', rfl⟩ := h'.owns key' hl'
  rw [hi] at hi'
  cases hi'
  rw [hslot] at hslot'
  cases hslot'
  rfl

theorem LeadOk.none_of_vacant (h : LeadOk k s t l) (hk : s.fetch.inflight.get? k = none) :
    l.lead = none := by
  cases hl : l.lead with
  | none => rfl
  | some key =>
      obtain ⟨-, i, -, hi, -⟩ := h.owns key hl
      rw [hk] at hi
      cases hi

/-- A step that leaves the slots to their owners and asks nobody. -/
theorem LeadOk.state (h : LeadOk k s t l) (hinflight : s'.fetch.inflight = s.fetch.inflight)
    (hslots : ∀ (i : Nat) (slot : Slot), s.fetch.slots[i]? = some slot →
      ∃ slot', s'.fetch.slots[i]? = some slot' ∧ slot'.owner = slot.owner)
    (hgets : s'.fetch.gets = s.fetch.gets) (hkept : s.kept k → s'.kept k) :
    LeadOk k s' t l := by
  refine ⟨?_, ?_, ?_⟩
  · intro key hkey
    obtain ⟨hk, i, slot, hi, hslot, howner⟩ := h.owns key hkey
    obtain ⟨slot', hslot', howner'⟩ := hslots i slot hslot
    exact ⟨hk, i, slot', hinflight ▸ hi, hslot', howner'.trans howner⟩
  · intro hkey
    rw [hgets]
    exact h.count hkey
  · intro hkey hst
    exact hkept (h.stored hkey hst)

end

section

variable {k : ChunkKey} {data : Bytes} {s s' : State} {t : Nat}
  {ws : Views (discipline (keyEnv cfg k (· = data) False))}
  {v : View (discipline (keyEnv cfg k (· = data) False))}

structure OneGet (k : ChunkKey) (s : State)
    (ws : Views (discipline (keyEnv cfg k (· = data) False))) : Prop where
  leads : ∀ t v, ws t = some v → LeadOk k s t v.loc
  landed : ∀ t v, ws t = some v → ∀ d, v.job = .insert k d → Loc.landed v.loc = true →
    ∃ n, s.disk.size? k = some n
  free : s.fetch.inflight.get? k = none →
    s.fetch.gets.count k = 0 ∨ s.fetch.gets.count k = 1 ∧ s.kept k

theorem OneGet.count_le (h : OneGet k s ws)
    (hC : Core (keyEnv cfg k (· = data) False) s ws) : s.fetch.gets.count k ≤ 1 := by
  cases hin : s.fetch.inflight.get? k with
  | none =>
      rcases h.free hin with hcount | ⟨hcount, -⟩ <;> omega
  | some i =>
      obtain ⟨slot, -, -, -, -, l, hl, hlead⟩ := hC.slots.present k i hin
      obtain ⟨v, hv, rfl⟩ := view_of_locsOf hl
      have hcount := (h.leads _ v hv).count hlead
      split at hcount <;> omega

/-- A step of one thread. -/
theorem OneGet.move (h : OneGet k s ws) {l : Loc} (hself : LeadOk k s' t l)
    (hothers : ∀ u w, ws u = some w → u ≠ t → LeadOk k s' u w.loc)
    (hlanded : ∀ d, v.job = .insert k d → l.landed = true → ∃ n, s'.disk.size? k = some n)
    (hsize : (∃ n, s.disk.size? k = some n) → ∃ n, s'.disk.size? k = some n)
    (hfree : s'.fetch.inflight.get? k = none →
      s'.fetch.gets.count k = 0 ∨ s'.fetch.gets.count k = 1 ∧ s'.kept k) :
    OneGet k s' (Function.update ws t (some ⟨v.job, v.parent, l⟩)) := by
  refine ⟨?_, ?_, hfree⟩
  · intro u w hu
    by_cases hut : u = t
    · subst hut
      rw [Function.update_self] at hu
      cases hu
      exact hself
    · rw [Function.update_of_ne hut] at hu
      exact hothers u w hu hut
  · refine Views.forall_update ?_ hlanded
    intro u w hu d hjob hl
    exact hsize (h.landed u w hu d hjob hl)

/-- A step that leaves the singleflight map and the requests alone. -/
theorem OneGet.frame (h : OneGet k s ws) (hv : ws t = some v) {l : Loc}
    (hlead : l.lead = Loc.lead v.loc) (hasked : l.asked = Loc.asked v.loc)
    (hstored : l.stored ≠ Loc.stored v.loc → s'.kept k)
    (hlanded : ∀ d, v.job = .insert k d → l.landed = true → ∃ n, s'.disk.size? k = some n)
    (hinflight : s'.fetch.inflight = s.fetch.inflight) (hslots : s'.fetch.slots = s.fetch.slots)
    (hgets : s'.fetch.gets = s.fetch.gets) (hkept : s.kept k → s'.kept k)
    (hsize : (∃ n, s.disk.size? k = some n) → ∃ n, s'.disk.size? k = some n) :
    OneGet k s' (Function.update ws t (some ⟨v.job, v.parent, l⟩)) := by
  have hstate (u : Nat) (w : View (discipline (keyEnv cfg k (· = data) False)))
      (hu : ws u = some w) : LeadOk k s' u w.loc := by
    refine (h.leads u w hu).state hinflight ?_ hgets hkept
    intro i slot hi
    exact ⟨slot, hslots ▸ hi, rfl⟩
  have hself := hstate t v hv
  refine h.move ⟨?_, ?_, ?_⟩ (fun u w hu _ => hstate u w hu) hlanded hsize ?_
  · intro key hkey
    exact hself.owns key (hlead ▸ hkey)
  · intro hkey
    rw [hasked]
    exact hself.count (hlead ▸ hkey)
  · intro hkey hst
    by_cases hsame : l.stored = Loc.stored v.loc
    · exact hself.stored (hlead ▸ hkey) (hsame ▸ hst)
    · exact hstored hsame
  · intro hk
    rw [hinflight] at hk
    rw [hgets]
    exact (h.free hk).imp id fun hone => ⟨hone.1, hkept hone.2⟩

theorem OneGet.still (h : OneGet k s ws) (hv : ws t = some v) {l : Loc}
    (hlead : l.lead = Loc.lead v.loc) (hasked : l.asked = Loc.asked v.loc)
    (hstored : l.stored = Loc.stored v.loc)
    (hlanded : ∀ d, v.job = .insert k d → l.landed = true → Loc.landed v.loc = true)
    (hdisk : s'.disk = s.disk) (hfetch : s'.fetch = s.fetch) :
    OneGet k s' (Function.update ws t (some ⟨v.job, v.parent, l⟩)) := by
  refine h.frame hv hlead hasked (fun hne => absurd hstored hne) ?_ (by rw [hfetch])
    (by rw [hfetch]) (by rw [hfetch]) ?_ ?_
  · intro d hjob hl
    rw [hdisk]
    exact h.landed t v hv d hjob (hlanded d hjob hl)
  · unfold State.kept
    rw [hdisk, hfetch]
    exact id
  · rw [hdisk]
    exact id

theorem OneGet.birth (h : OneGet k s ws) (j : Job) (parent : Option Nat) :
    OneGet k s (Function.update ws t (some ⟨j, parent, { job := j }⟩)) :=
  ⟨Views.forall_update h.leads (.of_none rfl), Views.forall_update h.landed nofun, h.free⟩

/-- A step of the thread that leads. Nobody else does. -/
theorem OneGet.lead (h : OneGet k s ws) (hv : ws t = some v) {key : ChunkKey}
    (hlead : Loc.lead v.loc = some key) {l : Loc} (hself : LeadOk k s' t l)
    (hlanded : l.landed = Loc.landed v.loc) (hdisk : s'.disk = s.disk)
    (hfree : s'.fetch.inflight.get? k = none →
      s'.fetch.gets.count k = 0 ∨ s'.fetch.gets.count k = 1 ∧ s'.kept k) :
    OneGet k s' (Function.update ws t (some ⟨v.job, v.parent, l⟩)) := by
  refine h.move hself ?_ ?_ ?_ hfree
  · intro u w hu hut
    refine LeadOk.of_none ?_
    cases hw : Loc.lead w.loc with
    | none => rfl
    | some key' => exact absurd ((h.leads t v hv).unique (h.leads u w hu) hlead hw) hut
  · intro d hjob hl
    rw [hdisk]
    exact h.landed t v hv d hjob (hlanded ▸ hl)
  · rw [hdisk]
    exact id

/-- The chunk stays in the index, and an insert puts it there. -/
theorem size?_of_serves {l : Loc} {n : Nat} {o : DiskOp} {c : DiskChoice} {r : o.Resp}
    (hjob : l.job.serves k n) (hpre : diskPre (keyEnv cfg k (· = data) False) l o)
    (hno : evictsNothing cfg s o) (hex : s.disk.exec cfg.disk t c o = (r, s'.disk))
    (h : (∃ m, s.disk.size? k = some m) ∨ lands o = true) : ∃ m, s'.disk.size? k = some m := by
  obtain ⟨hsweeps, hreconciles, hremove⟩ := hjob.quiet
  have hsize : s'.disk.size? k = Disk.sizeAfter cfg.disk s.disk k o := by
    rw [← Disk.size?_exec k t c o, hex]
  rw [hsize]
  cases o with
  | insertSection key m =>
      obtain ⟨d, hinsert, -⟩ := hpre
      rw [hinsert] at hjob
      obtain rfl : key = k := hjob
      have hnone : (s.disk.afterInsert cfg.disk key m).2 = [] := hno
      exact ⟨m, by simp [Disk.sizeAfter, hnone]⟩
  | removeSection key => exact absurd hpre.2 (hremove key)
  | reconcileSection missing =>
      rw [show l.job.reconciles = true from hpre] at hreconciles
      cases hreconciles
  | clearSection =>
      rw [show l.job.sweeps = true from hpre] at hsweeps
      cases hsweeps
  | _ =>
      rcases h with h | h
      · exact h
      · cases h

theorem OneGet.disk (h : OneGet k s ws) {n : Nat} (hK : OneKey k n ws) (hv : ws t = some v)
    (hloc : Loc.job v.loc = v.job) {o : DiskOp} {c : DiskChoice} {r : o.Resp}
    (hpre : diskPre (keyEnv cfg k (· = data) False) v.loc o) (hno : evictsNothing cfg s o)
    (hex : s.disk.exec cfg.disk t c o = (r, s'.disk)) (hfetch : s'.fetch = s.fetch) :
    OneGet k s' (Function.update ws t (some ⟨v.job, v.parent, diskNext v.loc o r⟩)) := by
  have hserves : (Loc.job v.loc).serves k n := hloc.symm ▸ (hK t v hv).1
  have hsize := size?_of_serves hserves hpre hno hex
  obtain ⟨file, hnext⟩ := diskNext_eq v.loc o r
  rw [hnext]
  refine h.frame hv rfl rfl (fun hne => absurd rfl hne) ?_ (by rw [hfetch]) (by rw [hfetch])
    (by rw [hfetch]) ?_ fun hk => hsize (.inl hk)
  · intro d hjob hl
    rcases Bool.or_eq_true_iff.mp hl with hl | hl
    · exact hsize (.inl (h.landed t v hv d hjob hl))
    · exact hsize (.inr hl)
  · rintro (⟨d, hd⟩ | hk)
    · exact .inl ⟨d, by rw [hfetch]; exact hd⟩
    · exact .inr (hsize (.inl hk))

/-- A chunk leaves `inflight_writes` only after its insert. -/
theorem OneGet.kept_of_fetch (h : OneGet k s ws)
    (hB : Base (keyEnv cfg k (· = data) False) s ws) {n : Nat} (hK : OneKey k n ws)
    (hv : ws t = some v) {o : FetchOp} {c : FetchChoice} {r : o.Resp}
    (hpre : fetchPre (keyEnv cfg k (· = data) False) v.loc o)
    (hex : s.fetch.exec cfg.rdma t c o = some (r, s'.fetch)) (hdisk : s'.disk = s.disk)
    (hkept : s.kept k) : s'.kept k := by
  obtain ⟨hwrites, -⟩ := FetchState.exec_frame hex
  have hloc := (hB.core.job t v hv).1
  have hserves := (hK t v hv).1
  unfold State.kept
  rw [hwrites, hdisk]
  cases o with
  | writesInsert key d =>
      simp only [FetchState.writesAfter, FinMap.get?_insert]
      split
      · exact .inl ⟨d, rfl⟩
      · exact hkept
  | writesRemove key =>
      obtain ⟨d, hjob, hlanded | hio | hlost⟩ := hpre
      · -- the insert of the task has put the chunk into the index
        have hvjob : v.job = .insertTask key d := hloc.symm.trans hjob
        rw [hvjob] at hserves
        obtain rfl : key = k := hserves
        obtain ⟨u, w, hchild, hw, hwl⟩ := hB.notes.landed t v key d hv hvjob hlanded
        obtain ⟨w', hw', hwjob, -⟩ := hB.lineage.child t v key d u hv hvjob hchild
        rw [hw] at hw'
        cases hw'
        exact .inr (h.landed u w hw d hwjob hwl)
      · exact hio.elim
      · rw [(hB.joined t v hv).lost] at hlost
        cases hlost
  | writesClear =>
      have hsweeps := hserves.quiet.1
      rw [← hloc, show Loc.job v.loc = .clearLocalState from hpre] at hsweeps
      cases hsweeps
  | _ => exact hkept

/-- `inflight.entry`: a follower changes nothing for the leader, and a new
leader is the first. -/
theorem OneGet.enter (h : OneGet k s ws) (hv : ws t = some v) {r : Role}
    (hlead : Loc.lead v.loc = none)
    (hex : s.fetch.inflightEntry t k = (r, s'.fetch)) (hdisk : s'.disk = s.disk)
    (hcold : s.fetch.inflight.get? k = none → ¬ s.holds k) :
    OneGet k s' (Function.update ws t
      (some ⟨v.job, v.parent, fetchNext v.loc (.inflightEntry k) r⟩)) := by
  have hsize : (∃ n, s.disk.size? k = some n) → ∃ n, s'.disk.size? k = some n := by
    rw [hdisk]
    exact id
  have hlanded (d : Bytes) (hjob : v.job = .insert k d) (hl : Loc.landed v.loc = true) :
      ∃ n, s'.disk.size? k = some n := hsize (h.landed t v hv d hjob hl)
  unfold FetchState.inflightEntry at hex
  split at hex
  · rename_i i hi
    obtain ⟨rfl, hf⟩ := Prod.mk.inj hex
    have hkept : s.kept k → s'.kept k := by
      unfold State.kept
      rw [hdisk, ← hf]
      exact id
    refine h.move (.of_none hlead) ?_ hlanded hsize ?_
    · intro u w hu _
      refine (h.leads u w hu).state (by rw [← hf]) ?_ (by rw [← hf]) hkept
      intro j slot hj
      rw [← hf]
      simp only [List.getElem?_modify, hj]
      split
      · exact ⟨_, rfl, rfl⟩
      · exact ⟨slot, rfl, rfl⟩
    · intro hk
      rw [← hf, hi] at hk
      cases hk
  · rename_i hnone
    obtain ⟨rfl, hf⟩ := Prod.mk.inj hex
    have hcount : s.fetch.gets.count k = 0 := by
      rcases h.free hnone with hzero | ⟨-, hkept⟩
      · exact hzero
      · exact absurd (.inl hkept) (hcold hnone)
    refine h.move ⟨?_, ?_, ?_⟩ ?_ hlanded hsize ?_
    · intro key hkey
      obtain rfl : k = key := Option.some.inj hkey
      refine ⟨rfl, s.fetch.slots.length, ⟨k, t, [], [], none⟩, ?_, ?_, rfl⟩
      · rw [← hf]
        exact FinMap.get?_insert_self _ _ _
      · rw [← hf]
        simp
    · intro _
      rw [← hf]
      exact hcount
    · intro _ hst
      exact absurd rfl hst
    · intro u w hu _
      exact .of_none ((h.leads u w hu).none_of_vacant hnone)
    · intro hk
      rw [← hf] at hk
      change (s.fetch.inflight.insert k _).get? k = none at hk
      rw [FinMap.get?_insert_self] at hk
      cases hk

/-- Every operation of the fetcher keeps to one request. -/
theorem OneGet.fetch (h : OneGet k s ws) (hB : Base (keyEnv cfg k (· = data) False) s ws)
    (hK : OneKey k data.length ws) (hv : ws t = some v) {o : FetchOp} {c : Choice} {r : o.Resp}
    (hpre : fetchPre (keyEnv cfg k (· = data) False) v.loc o)
    (hex : s.fetch.exec cfg.rdma t c.fetch o = some (r, s'.fetch)) (hdisk : s'.disk = s.disk)
    (hcold : o = .inflightEntry k → s.fetch.inflight.get? k = none → ¬ s.holds k) :
    OneGet k s' (Function.update ws t (some ⟨v.job, v.parent, fetchNext v.loc o r⟩)) := by
  obtain ⟨hwrites, hgets, hsame⟩ := FetchState.exec_frame hex
  have hloc := (hB.core.job t v hv).1
  have hserves := (hK t v hv).1
  have hkept := h.kept_of_fetch hB hK hv hpre hex hdisk
  have hsize : (∃ n, s.disk.size? k = some n) → ∃ n, s'.disk.size? k = some n := by
    rw [hdisk]
    exact id
  have hlanded (d : Bytes) (hjob : v.job = .insert k d) (hl : Loc.landed v.loc = true) :
      ∃ n, s'.disk.size? k = some n := hsize (h.landed t v hv d hjob hl)
  have hself := h.leads t v hv
  cases o with
  | inflightEntry key =>
      obtain ⟨hlead, -, hkey, -⟩ := hpre
      obtain rfl : key = k := hkey
      exact h.enter hv hlead (Option.some.inj hex) hdisk (hcold rfl)
  | finishLeader key msg =>
      obtain ⟨hlead, hmsg⟩ := hpre
      obtain rfl : key = k := (hself.owns key hlead).1
      refine h.lead hv hlead (.of_none rfl) rfl hdisk fun _ => ?_
      have hgets : s'.fetch.gets = s.fetch.gets := hgets
      rw [hgets, hself.count hlead]
      split
      · -- a leader that has asked has stored what it got
        refine .inr ⟨rfl, hkept (hself.stored hlead ?_)⟩
        cases msg with
        | ok d =>
            rcases hmsg.2 with hst | hhit
            · rw [hst]
              exact nofun
            · exact hhit.elim
        | error e =>
            rcases hmsg with horigin | ⟨m, hm, hwrong⟩
            · exact horigin.elim
            · rw [hloc] at hm
              rw [hserves.expectedLen hm] at hwrong
              exact absurd hwrong (wrongLen_false fun d hd => by rw [hd])
      · exact .inl rfl
  | unknownMount key =>
      obtain ⟨hlead, hasked, -⟩ := hpre
      obtain rfl : key = k := (hself.owns key hlead).1
      refine h.lead hv hlead (.of_none rfl) rfl hdisk fun _ => .inl ?_
      have hgets : s'.fetch.gets = s.fetch.gets := hgets
      rw [hgets, hself.count hlead, hasked]
      rfl
  | getSend key req =>
      obtain ⟨-, hlead, hasked⟩ := hpre
      obtain ⟨hinflight, hslots⟩ := hsame rfl
      obtain ⟨rfl, i, slot, hi, hslot, howner⟩ := hself.owns key hlead
      refine h.lead hv hlead ⟨?_, ?_, ?_⟩ rfl hdisk ?_
      · intro key' hkey'
        obtain rfl : key' = key := (hself.owns key' hkey').1
        exact ⟨rfl, i, slot, hinflight ▸ hi, hslots ▸ hslot, howner⟩
      · intro _
        have hcount := hself.count hlead
        rw [hasked] at hcount
        rw [hgets, FetchState.getsAfter, List.count_cons_self, hcount]
        rfl
      · intro _ hst
        exact hkept (hself.stored hlead hst)
      · intro hk
        rw [hinflight, hi] at hk
        cases hk
  | inflightClear =>
      have hsweeps := hserves.quiet.1
      rw [← hloc, show Loc.job v.loc = .clearLocalState from hpre] at hsweeps
      cases hsweeps
  | writesInsert key d =>
      obtain ⟨hinflight, hslots⟩ := hsame rfl
      obtain ⟨-, hkey, -⟩ := hpre
      obtain rfl : key = k := hkey
      refine h.frame hv rfl rfl (fun _ => .inl ⟨d, ?_⟩) hlanded hinflight hslots hgets hkept hsize
      rw [hwrites]
      exact FinMap.get?_insert_self _ _ _
  | _ =>
      obtain ⟨hinflight, hslots⟩ := hsame rfl
      exact h.frame hv rfl rfl (fun hne => absurd rfl hne) hlanded hinflight hslots hgets hkept
        hsize

end

theorem oneGet_keeps {k : ChunkKey} {data : Bytes} {G : State → Event (machine cfg) → Prop}
    (hG : ∀ s e, G s e → coldRun k data s e) :
    Keeps (discipline (keyEnv cfg k (· = data) False)) G
      (fun s ws => Base _ s ws ∧ OneKey k data.length ws) (OneGet k) where
  start {s ws t j} _ h _ _ _ _ := h.birth j none
  op {s ws t v o c r s'} hI h hv hpre hg hex _ := by
    change exec cfg t o c s = some (r, s') at hex
    obtain ⟨hB, hK⟩ := hI
    obtain ⟨hstep, hcold⟩ := hG _ _ hg
    cases o with
    | disk o =>
        obtain ⟨hd, -, hfetch⟩ := exec_disk hex
        exact h.disk hK hv (hB.core.job t v hv).1 hpre hstep.2 hd hfetch
    | index o =>
        obtain ⟨-, hdisk, hfetch⟩ := exec_index hex
        obtain ⟨snap, pushed, noted, hnext⟩ := indexNext_eq v.loc o r
        change OneGet k s' (Function.update ws t (some ⟨v.job, v.parent, indexNext v.loc o r⟩))
        rw [hnext]
        exact h.still hv rfl rfl rfl (fun _ _ hl => hl) hdisk hfetch
    | fetch o =>
        obtain ⟨hf, hdisk, -⟩ := exec_fetch hex
        refine h.fetch hB hK hv hpre hf hdisk ?_
        rintro rfl
        exact hcold rfl
    | snapshotKeys =>
        obtain ⟨-, hdisk, hfetch, -⟩ := exec_snapshotKeys hex
        exact h.still hv rfl rfl rfl (fun _ _ hl => hl) hdisk hfetch
  spawn {s ws t v u j} _ h hv _ _ _ _ := by
    have hmove : OneGet k s (Function.update ws t (some (v.spawned ⟨u, j⟩))) :=
      h.still hv rfl rfl rfl (fun _ _ hl => hl) rfl rfl
    exact hmove.birth j (some t)
  join {s ws t v hd w x} hI h hv _ _ _ := by
    refine h.still hv rfl rfl rfl ?_ rfl rfl
    intro d hjob hl
    -- an insert has nobody to wait for
    have hchild := (hI.1.joined t v hv).insert k d hjob
    change (Loc.landed v.loc || (decide (Loc.child v.loc = some hd.tid) && _)) = true at hl
    simpa [hchild] using hl
  lost {s ws t v hd w l} _ h hv _ _ _ := by
    refine h.still hv rfl rfl rfl ?_ rfl rfl
    intro d _ hl
    change (Loc.landed v.loc || (_ && decide ((none : Option Val) = some (.done (.ok ()))))) = true
      at hl
    simpa using hl
  cancel _ _ _ _ hg := (hG _ _ hg).1.elim

/-- The origin's answer for the chunk arrives. -/
def receives (k : ChunkKey) : Event (machine cfg) → Prop
  | .op _ (.fetch (.getRecv key)) _ => key = k
  | _ => False

theorem coldStep_respects {k : ChunkKey} {data : Bytes} {p : Bytes → Prop}
    {G : State → Event (machine cfg) → Prop} (hG : ∀ s e, G s e → coldStep k data s e)
    (hp : ∀ s e, G s e → receives k e → p data) : Respects (keyEnv cfg k p False) G where
  start s j hg _ := Job.asks.jobOk (hG _ _ hg)
  disk s t o c hg := .inr (hG s (.op t (.disk o) c) hg).1
  peer _ s t req c hg d hd := absurd hd (hG s (.op t (.fetch (.peerFetch req)) c) hg d)
  origin _ s t key c hg := by
    have horigin : c.fetch.origin = .ok data := hG s (.op t (.fetch (.getRecv key)) c) hg
    rw [horigin]
    refine ⟨?_, nofun⟩
    rintro d ⟨⟩ hkey
    exact hp s _ hg hkey

/-- Requests to the origin are only added. -/
theorem gets_step (k : ChunkKey) {c c' : Config (machine cfg)} {lbl : Label (machine cfg)}
    {e : Event (machine cfg)} (h : c.step lbl = some (e, c')) :
    c.state.fetch.gets.count k ≤ c'.state.fetch.gets.count k := by
  rcases Config.step_state h with hsame | ⟨t, o, ch, r, -, hex⟩ | ⟨t, -, hcan⟩
  · rw [hsame]
  · change exec cfg t o ch c.state = some (r, c'.state) at hex
    cases o with
    | disk o => rw [(exec_disk hex).2.2]
    | index o => rw [(exec_index hex).2.2]
    | snapshotKeys => rw [(exec_snapshotKeys hex).2.2.1]
    | fetch o =>
        rw [(FetchState.exec_frame (exec_fetch hex).1).2.1]
        unfold FetchState.getsAfter
        split
        · exact List.count_le_count_cons
        · exact le_rfl
  · have hgets : c'.state.fetch.gets = c.state.fetch.gets := by
      rw [hcan]
      exact FetchState.dropGuard_gets _ _
    rw [hgets]

section

variable {k : ChunkKey} {data : Bytes} {s0 : State} {c : Config (machine cfg)}

/-- The invariants of a cold run. -/
theorem oneGet_reach (h0 : Cold cfg k s0) (hrun : Config.Reach (coldRun k data) (.init s0) c) :
    ∃ ws, Agree (discipline (keyEnv cfg k (· = data) False)) c.threads ws ∧
      (Base _ c.state ws ∧ OneKey k data.length ws) ∧ OneGet k c.state ws := by
  have hresp : Respects (keyEnv cfg k (· = data) False) (coldRun k data) :=
    coldStep_respects (fun _ _ h => h.1) fun _ _ _ _ => rfl
  have hkeys : Keeps (discipline (keyEnv cfg k (· = data) False)) (coldRun k data) (Base _)
      fun _ ws => OneKey k data.length ws :=
    oneKey_keeps (fun d hd => by rw [hd]) (fun _ _ h => h.1) fun _ _ h => h.1
  refine (((base_sound hresp).and hkeys).and (oneGet_keeps fun _ _ h => h)).reach
    ⟨⟨?_, ?_⟩, ?_⟩ hrun
  · exact (h0.settled _ _).base h0.unused
  · intro t v hv
    cases hv
  · refine ⟨?_, ?_, fun _ => .inl h0.gets⟩
    · intro t v hv
      cases hv
    · intro t v hv
      cases hv

/-- As long as the origin has not been asked, nothing arrives from it. -/
theorem reach_without_get (h0 : Cold cfg k s0)
    (hrun : Config.Reach (coldRun k data) (.init s0) c)
    (hzero : c.state.fetch.gets.count k = 0) :
    Config.Reach (fun s e => coldStep k data s e ∧ ¬ receives k e) (.init s0) c := by
  induction hrun with
  | refl => exact .refl
  | @tail c c' lbl e hprev hstep hg ih =>
      have hmono := gets_step k hstep
      refine .tail (ih (by omega)) hstep ⟨hg.1, fun hrec => ?_⟩
      obtain ⟨ws, hA, ⟨-, -⟩, hO⟩ := oneGet_reach h0 hprev
      cases e with
      | op t o ch =>
          cases o with
          | fetch o =>
              cases o with
              | getRecv key =>
                  obtain rfl : key = k := hrec
                  obtain ⟨th, v, -, hv, -, -, hlead, hasked⟩ := hA.pre_of_step hstep
                  have hcount := (hO.leads t v hv).count hlead
                  rw [show Loc.asked v.loc = true from hasked] at hcount
                  simp only [if_true] at hcount
                  omega
              | _ => cases hrec
          | _ => cases hrec
      | _ => cases hrec

/-- A request that looks for the chunk at all. -/
def Job.needsChunk : Job → Bool
  | .fetchChunkRange _ _ _ _ subLen _ => subLen ≠ 0
  | _ => true

/-- When no value is right for the chunk, nothing runs any more and the mount
is known, a request has no reason to fail. -/
theorem no_blame {ws : Views (discipline (keyEnv cfg k (fun _ => False) False))}
    (hA : Agree (discipline (keyEnv cfg k (fun _ => False) False)) c.threads ws)
    (hB : Base _ c.state ws) {n : Nat} (hK : OneKey k n ws) (hquiet : c.quiescent = true)
    (hmount : cfg.mounts.get? k.mount ≠ none) {t m : Nat} {l : Loc}
    (hl : locsOf ws t = some l) : ¬ (keyEnv cfg k (fun _ => False) False).blame l k m := by
  rintro (horigin | ⟨d, hd, -⟩ | hlost | ⟨i, r, hheard, -⟩)
  · exact horigin
  · exact hd rfl
  · obtain ⟨w, hw, rfl⟩ := view_of_locsOf hl
    rw [(hB.joined t w hw).lost] at hlost
    cases hlost
  · obtain ⟨slot, hi, rfl, -, -⟩ := hB.core.slots.heard t l k i r hl hheard
    rcases hB.core.slots.gone i slot hi with hin | hclosed
    · -- a slot in the map has an owner that still runs
      obtain ⟨slot', -, -, -, -, lo, hlo, hlead⟩ := hB.core.slots.present _ _ hin
      obtain ⟨th, p, hth, hp⟩ := running_of_lead hA hlo hlead
      have hfin := Config.finished_of_quiescent hquiet hth
      rw [Thread.finished, hp] at hfin
      cases hfin
    · unfold SlotClosed at hclosed
      split at hclosed
      · exact hclosed
      · obtain ⟨-, u, lu, hu, hjob⟩ := hclosed
        obtain ⟨w, hw, rfl⟩ := view_of_locsOf hu
        have hsweeps := (hK u w hw).1.quiet.1
        rw [← (hB.core.job u w hw).1, show Loc.job w.loc = .clearLocalState from hjob] at hsweeps
        cases hsweeps
      · obtain ⟨msg, lu, -, -, hmsg⟩ := hclosed
        cases msg with
        | ok d => exact hmsg rfl
        | error e =>
            rcases hmsg with horigin | ⟨_, -, d, hd, -⟩
            · exact horigin
            · exact hd rfl
      · obtain ⟨-, lu, hu, hdead⟩ := hclosed
        obtain ⟨w, hw, rfl⟩ := view_of_locsOf hu
        rw [(hK _ w hw).2] at hdead
        cases hdead
      · exact hmount hclosed.2

/-- A request that has come to an end without a request to the origin. -/
theorem get_of_answer (h0 : Cold cfg k s0) (hrun : Config.Reach (coldRun k data) (.init s0) c)
    (hquiet : c.quiescent = true) (hmount : cfg.mounts.get? k.mount ≠ none) {t : Nat} {j : Job}
    (hjob : c.job t = some j) (hasks : j.asks k data.length) (hneeds : j.needsChunk = true) :
    c.state.fetch.gets.count k ≠ 0 := by
  intro hzero
  have hreach := reach_without_get h0 hrun hzero
  have hresp : Respects (keyEnv cfg k (fun _ => False) False)
      fun s e => coldStep k data s e ∧ ¬ receives k e :=
    coldStep_respects (fun _ _ h => h.1) fun _ _ h hrec => h.2 hrec
  have hkeys : Keeps (discipline (keyEnv cfg k (fun _ => False) False))
      (fun s e => coldStep k data s e ∧ ¬ receives k e) (Base _)
      fun _ ws => OneKey k data.length ws :=
    oneKey_keeps (fun d hd => hd.elim) (fun _ _ h => h.1) fun _ _ h => h.1
  obtain ⟨ws, hA, hB, hK⟩ := ((base_sound hresp).and hkeys).reach
    ⟨(h0.settled _ _).base h0.unused, fun t v hv => by cases hv⟩ hreach
  obtain ⟨th, hth, hthj⟩ := Option.map_eq_some_iff.mp hjob
  obtain ⟨w, hw, hok⟩ := hA.thread t th hth
  have hfin := Config.finished_of_quiescent hquiet hth
  have hdone : ∃ v, c.result t = some v := by
    cases hst : th.status with
    | running p =>
        rw [Thread.finished, hst] at hfin
        cases hfin
    | cancelled =>
        have hstatus := hok.status
        rw [hst] at hstatus
        obtain ⟨l, hl⟩ := hstatus
        have hdead := (hK t w hw).2
        rw [hl] at hdead
        cases hdead
    | done v =>
        obtain ⟨job, parent, status⟩ := th
        cases hst
        exact ⟨v, by rw [Config.result, hth]⟩
  obtain ⟨v, hdone⟩ := hdone
  obtain ⟨l, hl, -, -, hval⟩ := value_of_done hA hB.core hjob hdone
  have hblame (m : Nat) := no_blame hA hB hK hquiet hmount (m := m) hl
  cases j with
  | fetchChunk mount blob offset n
  | fetchChunkOriginOnly mount blob offset n =>
      obtain ⟨rfl, -⟩ := hasks
      obtain ⟨r, -, hr⟩ := hval
      cases r with
      | ok d => exact hr.1 rfl
      | error e => exact hblame n hr
  | fetchChunkRange mount blob offset subOffset subLen n =>
      obtain ⟨rfl, -⟩ := hasks
      obtain ⟨r, -, hr⟩ := hval
      cases r with
      | ok d =>
          rcases hr with ⟨hzero, -⟩ | ⟨d, hd, -⟩
          · simp [Job.needsChunk, hzero] at hneeds
          · exact hd rfl
      | error e =>
          rcases hr with hr | ⟨d, hd, -⟩
          · exact hblame n hr
          · exact hd rfl
  | servePeerChunk key n waitMs =>
      obtain ⟨rfl, -⟩ := hasks
      obtain ⟨r, -, hr⟩ := hval
      cases r with
      | some d => exact hr.1 rfl
      | none =>
          rcases hr with hr | hr
          · exact hblame n hr
          · exact hmount hr
  | _ => exact hasks

/-- At most one request to the origin for a cold chunk, and one when the
requests for it have come to an end, as long as nobody takes the slot while
the chunk is held. -/
theorem one_get_per_cold_chunk (h0 : Cold cfg k s0)
    (hrun : Config.Reach (coldRun k data) (.init s0) c) :
    c.state.fetch.gets.count k ≤ 1 ∧
      (c.quiescent = true → cfg.mounts.get? k.mount ≠ none →
        (∃ t j, c.job t = some j ∧ j.asks k data.length ∧ j.needsChunk = true) →
        c.state.fetch.gets.count k = 1) := by
  obtain ⟨ws, -, ⟨hB, -⟩, hO⟩ := oneGet_reach h0 hrun
  have hle := hO.count_le hB.core
  refine ⟨hle, ?_⟩
  rintro hquiet hmount ⟨t, j, hjob, hasks, hneeds⟩
  have hne := get_of_answer h0 hrun hquiet hmount hjob hasks hneeds
  omega

end

theorem Cold.new (cfg : NodeConfig) (k : ChunkKey) : Cold cfg k (State.new cfg) := by
  have h := Settled.new (keyEnv cfg k (fun _ => False) False)
  refine ⟨.new cfg, h.inode, h.fresh, h.inflight, h.slots, h.guards, rfl, ?_, rfl⟩
  rintro ((⟨d, hd⟩ | ⟨n, hn⟩) | ⟨lru, d, hlru, hd⟩)
  · exact h.stores.writes k d hd rfl
  · cases hn
  · exact h.stores.lru lru hlru k d hd rfl

/-- A step of requests for the sample chunk, checked. -/
def coldGate (s : State) (e : Event (machine sampleConfig)) : Bool :=
  gate (fun (j : effect.Job) => decide (j = sampleFetch)) (fun _ d => decide (d = [1, 2, 3, 4]))
      s e &&
    match e with
    | .op _ (.disk (.insertSection key n)) _ =>
        decide ((s.disk.afterInsert sampleConfig.disk key n).2 = [])
    | .cancel _ => false
    | _ => true

theorem coldStep_of_gate {s : State} {e : Event (machine sampleConfig)} (h : coldGate s e = true) :
    coldStep (sampleKey 0) [1, 2, 3, 4] s e := by
  obtain ⟨hgate, hrest⟩ := Bool.and_eq_true_iff.mp h
  cases e with
  | start j =>
      obtain rfl : j = sampleFetch := of_decide_eq_true hgate
      exact ⟨rfl, rfl⟩
  | op t o c =>
      cases o with
      | disk o =>
          refine ⟨of_decide_eq_true hgate, ?_⟩
          cases o with
          | insertSection key n =>
              have hnone : (s.disk.afterInsert sampleConfig.disk key n).2 = [] :=
                of_decide_eq_true hrest
              exact hnone
          | _ => trivial
      | fetch o =>
          cases o with
          | peerFetch req =>
              intro d hd
              simp [gate, opGate, hd] at hgate
          | getRecv key =>
              simp only [gate, opGate] at hgate
              split at hgate
              · rename_i d hd
                rw [of_decide_eq_true hgate] at hd
                exact hd
              · cases hgate
          | _ => trivial
      | _ => trivial
  | cancel t => cases hrest
  | _ => trivial

/-- Whoever creates the slot finds the stores empty, checked. -/
def vacantGate (s : State) : Event (machine sampleConfig) → Bool
  | .op _ (.fetch (.inflightEntry _)) _ =>
      (s.fetch.inflight.get? (sampleKey 0)).isSome ||
        (s.fetch.inflightWrites.get? (sampleKey 0)).isNone &&
          (s.disk.size? (sampleKey 0)).isNone && s.fetch.peerLru.isNone
  | _ => true

theorem entersCold_of_gate {s : State} {e : Event (machine sampleConfig)}
    (h : vacantGate s e = true) : entersCold (sampleKey 0) s e := by
  cases e with
  | op t o c =>
      cases o with
      | fetch o =>
          cases o with
          | inflightEntry key =>
              intro _ hvacant hholds
              simp only [vacantGate, hvacant, Option.isSome_none, Bool.false_or, Bool.and_eq_true,
                Option.isNone_iff_eq_none] at h
              obtain ⟨⟨hwrites, hsize⟩, hlru⟩ := h
              rcases hholds with (⟨d, hd⟩ | ⟨n, hn⟩) | ⟨lru, d, hd, -⟩
              · rw [hwrites] at hd
                cases hd
              · rw [hsize] at hn
                cases hn
              · rw [hlru] at hd
                cases hd
          | _ => trivial
      | _ => trivial
  | _ => trivial

/-- The second request arrives while the origin is being asked; both get the
chunk, and it is stored. -/
def sharedSchedule : List (Label (machine sampleConfig)) :=
  followTurns ++ [originTurn 0 [1, 2, 3, 4]] ++ turns 0 5 ++ turns 2 2 ++ turns 4 1 ++
    turns 5 7 ++ turns 4 6

theorem one_get_per_cold_chunk_for_two_requests :
    ∃ c : Config (machine sampleConfig),
      Config.Reach (coldRun (sampleKey 0) [1, 2, 3, 4]) (.init (State.new sampleConfig)) c ∧
      c.job 0 = some sampleFetch ∧ c.job 2 = some sampleFetch ∧
      c.state.fetch.gets.count (sampleKey 0) = 1 := by
  obtain ⟨c, hrun, hc⟩ := Config.reach_of_replay
    (G := fun s e => coldGate s e && vacantGate s e)
    (H := coldRun (sampleKey 0) [1, 2, 3, 4])
    (fun s e h => by
      obtain ⟨hcold, hvacant⟩ := Bool.and_eq_true_iff.mp h
      exact ⟨coldStep_of_gate hcold, entersCold_of_gate hvacant⟩)
    (.init (State.new sampleConfig)) sharedSchedule
    (fun c => decide (c.job 0 = some sampleFetch) && decide (c.job 2 = some sampleFetch) &&
      c.quiescent) (by decide +kernel)
  simp only [Bool.and_eq_true, decide_eq_true_eq] at hc
  obtain ⟨⟨hjob, hjob'⟩, hquiet⟩ := hc
  have hone := (one_get_per_cold_chunk (Cold.new sampleConfig (sampleKey 0)) hrun).2 hquiet
    (by decide) ⟨0, sampleFetch, hjob, ⟨rfl, rfl⟩, rfl⟩
  exact ⟨c, hrun, hjob, hjob', hone⟩

/-- The first request has missed in all three stores when the second one
fetches the chunk and gives up its slot; then the first one takes the slot. -/
def lateSchedule : List (Label (machine sampleConfig)) :=
  [.start sampleFetch] ++ turns 0 3 ++ turns 1 3 ++ turns 0 1 ++ [.start sampleFetch] ++
    missTurns 2 3 ++ [originTurn 2 [1, 2, 3, 4]] ++ turns 2 5 ++ turns 0 4

theorem cold_chunk_fetched_twice :
    Cold sampleConfig (sampleKey 0) (State.new sampleConfig) ∧
    ∃ c : Config (machine sampleConfig),
      Config.Reach (coldStep (sampleKey 0) [1, 2, 3, 4]) (.init (State.new sampleConfig)) c ∧
      c.state.fetch.gets.count (sampleKey 0) = 2 := by
  obtain ⟨c, hrun, hc⟩ := Config.reach_of_replay (G := coldGate)
    (H := coldStep (sampleKey 0) [1, 2, 3, 4]) (fun _ _ => coldStep_of_gate)
    (.init (State.new sampleConfig)) lateSchedule
    (fun c => decide (c.state.fetch.gets.count (sampleKey 0) = 2)) (by decide +kernel)
  exact ⟨.new _ _, c, hrun, of_decide_eq_true hc⟩

end BlobCache.Node
