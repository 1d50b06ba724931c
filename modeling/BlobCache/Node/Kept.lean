import BlobCache.Node.Advertise

/-!
A chunk that stays. While a chunk does not leave the cache, it stays in the
filter from the first time that a task has noted it, whoever inserted it last.
-/

namespace BlobCache.Node

open Cache Conc

variable {cfg : NodeConfig} {env : Env cfg} {k : ChunkKey} {s s' : State}

theorem State.live_of_disk (hdisk : s'.disk = s.disk) (hk : s.live k) :
    s'.live k := by
  rw [State.live, hdisk]
  exact hk

/-- The operation does not take the chunk out of the cache, and if it inserts
the chunk, the chunk is there afterwards. -/
def keepsLive (k : ChunkKey) (s : State) : Event (machine cfg) → Prop
  | .op t (.disk o) c => s.live k ∨ (∃ n, o = .insertSection k n) →
      k ∈ (s.disk.exec cfg.disk t (Choice.disk c) o).2.inner.entries.keys
  | _ => True

/-- What the invariant says of one thread: if it inserted the chunk, the chunk is
live; if it pushed the digest, the digest will not be lost; and if it noted it,
it is in the filter. -/
structure KeptAt (k : ChunkKey) (s : State) (v : View (discipline env)) : Prop where
  inserted : ∀ d, v.job = Job.insert k d → Loc.landed v.loc = true → s.live k
  pushed : ∀ d, v.job = Job.insertTask k d → Loc.pushed v.loc = true →
    s.live k ∧ Safe cfg s k
  noted : ∀ d, v.job = Job.insertTask k d → Loc.noted v.loc = true →
    s.index.bloom.contains (keyDigest cfg.sha256 k) = true

def Kept (k : ChunkKey) (s : State) (ws : Views (discipline env)) : Prop :=
  ∀ t v, ws t = some v → KeptAt k s v

/-- A step that does not lose the chunk or its digest. -/
theorem Kept.frame {ws : Views (discipline env)} (h : Kept k s ws) (hN : Notes s ws)
    (hlive : s.live k → s'.live k)
    (hsafe : s.live k → Safe cfg s k → Safe cfg s' k ∧
      (s.index.bloom.contains (keyDigest cfg.sha256 k) = true →
        s'.index.bloom.contains (keyDigest cfg.sha256 k) = true)) : Kept k s' ws := by
  intro t v hv
  obtain ⟨hins, hpushed, hnoted⟩ := h t v hv
  refine ⟨?_, ?_, ?_⟩
  · intro d hjob hl
    exact hlive (hins d hjob hl)
  · intro d hjob hp
    obtain ⟨hk, hs⟩ := hpushed d hjob hp
    exact ⟨hlive hk, (hsafe hk hs).1⟩
  · intro d hjob hn
    -- What is noted was pushed before, so its digest is safe.
    obtain ⟨hk, hs⟩ := hpushed d hjob ((hN.order t v hv).2 hn)
    exact (hsafe hk hs).2 (hnoted d hjob hn)

/-- A step that leaves the index and does not lose the chunk. -/
theorem Kept.frame_index {ws : Views (discipline env)} (h : Kept k s ws) (hN : Notes s ws)
    (hlive : s.live k → s'.live k) (hindex : s'.index = s.index) : Kept k s' ws := by
  refine h.frame hN hlive ?_
  intro _ hs
  rw [Safe, hindex]
  exact ⟨hs, id⟩

theorem Kept.birth {ws : Views (discipline env)} (h : Kept k s ws) (t : Nat) (j : Job)
    (parent : Option Nat) :
    Kept k s (Function.update ws t (some ⟨j, parent, (discipline env).init j⟩)) :=
  Views.forall_update h ⟨nofun, nofun, nofun⟩

/-- A thread moves on without inserting, pushing or noting anything. -/
theorem Kept.move {ws : Views (discipline env)} (h : Kept k s ws) {t : Nat}
    {v v' : View (discipline env)} (hv : ws t = some v) (hjob : v'.job = v.job)
    (hlanded : ∀ d, v.job = Job.insert k d → Loc.landed v'.loc = Loc.landed v.loc)
    (hpushed : Loc.pushed v'.loc = Loc.pushed v.loc)
    (hnoted : Loc.noted v'.loc = Loc.noted v.loc) :
    Kept k s (Function.update ws t (some v')) := by
  obtain ⟨hins, hpush, hnote⟩ := h t v hv
  refine Views.forall_update h ⟨?_, ?_, ?_⟩
  · intro d hj hl
    rw [hjob] at hj
    exact hins d hj ((hlanded d hj).symm.trans hl)
  · intro d hj hp
    exact hpush d (hjob.symm.trans hj) (hpushed.symm.trans hp)
  · intro d hj hn
    exact hnote d (hjob.symm.trans hj) (hnoted.symm.trans hn)

/-- The chunk of a task that is past its insert is live. -/
theorem Kept.task_live {ws : Views (discipline env)} (h : Kept k s ws) (hL : Lineage ws)
    (hN : Notes s ws) {t : Nat} {v : View (discipline env)} (hv : ws t = some v)
    {d : Bytes} (hjob : v.job = Job.insertTask k d) (hlanded : Loc.landed v.loc = true) :
    s.live k := by
  obtain ⟨u, w, hu, hw, hwl⟩ := hN.landed t v k d hv hjob hlanded
  obtain ⟨w', hw', hwjob, -⟩ := hL.child t v k d u hv hjob hu
  rw [hw] at hw'
  cases hw'
  exact (h u w hw).inserted d hwjob hwl

theorem Kept.disk {ws : Views (discipline env)} (h : Kept k s ws) (hN : Notes s ws) {t : Nat}
    {v : View (discipline env)} (hv : ws t = some v) (hloc : Loc.job v.loc = v.job) {o : DiskOp}
    {c : Choice} {r : o.Resp} (hpre : diskPre env v.loc o)
    (hex : s.disk.exec cfg.disk t c.disk o = (r, s'.disk)) (hindex : s'.index = s.index)
    (hkeeps : keepsLive k s (.op t (.disk o) c : Event (machine cfg))) :
    Kept k s' (Function.update ws t (some ⟨v.job, v.parent, diskNext v.loc o r⟩)) := by
  have hafter : s.live k ∨ (∃ n, o = .insertSection k n) → s'.live k := by
    intro hk
    have hmem := hkeeps hk
    rw [hex] at hmem
    exact hmem
  have hframe := h.frame_index hN (fun hk => hafter (.inl hk)) hindex
  obtain ⟨file, hnext⟩ := diskNext_eq v.loc o r
  rw [hnext]
  obtain ⟨hins, hpush, hnote⟩ := hframe t v hv
  refine Views.forall_update hframe ⟨?_, hpush, hnote⟩
  intro d hj hl
  change (Loc.landed v.loc || lands o) = true at hl
  rcases Bool.or_eq_true _ _ |>.mp hl with hl | hlands
  · exact hins d hj hl
  · cases o with
    | insertSection key size =>
        obtain ⟨data, hjob, -⟩ := hpre
        rw [hloc.trans hj] at hjob
        cases hjob
        exact hafter (.inr ⟨size, rfl⟩)
    | _ => cases hlands

theorem Kept.index {ws : Views (discipline env)} (h : Kept k s ws) (hL : Lineage ws)
    (hN : Notes s ws) {t : Nat} {v : View (discipline env)} (hv : ws t = some v)
    (hloc : Loc.job v.loc = v.job) {o : IndexOp} {r : o.Resp} (hpre : indexPre cfg v.loc o)
    (hex : s.index.exec cfg.index t o = (r, s'.index)) (hdisk : s'.disk = s.disk)
    (hdrain : drainCovered cfg s t (.index o)) :
    Kept k s' (Function.update ws t (some ⟨v.job, v.parent, indexNext v.loc o r⟩)) := by
  have hlive : s.live k → s'.live k := State.live_of_disk hdisk
  have hindex : s'.index = (s.index.exec cfg.index t o).2 := by rw [hex]
  cases o with
  | swapBloom new =>
      obtain ⟨keys, hsnap, rfl⟩ := hpre
      have hsnap' : s.index.snapshots.get? t = some keys := (hN.snap_of hv).trans hsnap
      have hframe : Kept k s' ws := by
        refine h.frame hN hlive ?_
        intro hk hs
        have hswap := hs.swap hsnap' hindex (hdrain k hk)
        exact ⟨hswap.2, fun _ => hswap.1⟩
      exact hframe.move hv rfl (fun _ _ => rfl) rfl rfl
  | pushPending digest =>
      obtain ⟨key, data, hjob, rfl, hlanded, -⟩ := hpre
      have hframe : Kept k s' ws := by
        refine h.frame hN hlive ?_
        intro _ hs
        refine ⟨hs.push hindex, ?_⟩
        rw [hindex]
        exact id
      obtain ⟨hins, hpush, hnote⟩ := hframe t v hv
      refine Views.forall_update hframe ⟨hins, ?_, hnote⟩
      intro d hj _
      rw [hloc.trans hj] at hjob
      cases hjob
      refine ⟨hlive (h.task_live hL hN hv hj hlanded), .inl ?_⟩
      rw [hindex]
      exact List.mem_append_right _ (List.mem_singleton.mpr rfl)
  | bloomInsert digest =>
      obtain ⟨key, data, hjob, rfl, -⟩ := hpre
      have hframe : Kept k s' ws := by
        refine h.frame hN hlive ?_
        intro _ hs
        exact ⟨hs.note hindex, fun hcon => contains_of_note hcon hindex⟩
      obtain ⟨hins, hpush, hnote⟩ := hframe t v hv
      refine Views.forall_update hframe ⟨hins, hpush, ?_⟩
      intro d hj _
      rw [hloc.trans hj] at hjob
      cases hjob
      rw [hindex]
      exact Bloom.insert_contains_self _ _
  | _ =>
      obtain ⟨remote, version, hframe⟩ := PeerIndex.exec_frame hex rfl
      refine Kept.move (h.frame hN hlive ?_) hv rfl (fun _ _ => rfl) rfl rfl
      intro _ hs
      rw [Safe, hframe]
      exact ⟨hs, id⟩

/-- An insert waits for nobody, so a join tells it nothing. -/
theorem Kept.joined {ws : Views (discipline env)} {v : View (discipline env)} (h : Kept k s ws)
    (hB : Base env s ws) (hv : ws t = some v) (hd : Handle effect) (x : Option Val) :
    Kept k s (Function.update ws t (some (v.joined hd x))) := by
  refine h.move hv rfl ?_ rfl rfl
  intro d hj
  have hchild := (hB.joined t v hv).insert k d hj
  change (Loc.landed v.loc || (decide (Loc.child v.loc = some hd.tid) && _)) = _
  simp [hchild]

theorem kept_keeps {G : State → Event (machine cfg) → Prop}
    (hG : ∀ s e, G s e → drainsCovered s e ∧ keepsLive k s e) :
    Keeps (discipline env) G (Base env) (Kept k) where
  start _ h _ _ _ _ := h.birth _ _ none
  op {s ws t v o c r s'} hB h hv hpre hg hex _ := by
    change exec cfg t o c s = some (r, s') at hex
    have hloc := (hB.core.job t v hv).1
    obtain ⟨hdrain, hkeeps⟩ := hG _ _ hg
    cases o with
    | disk o =>
        obtain ⟨hd, hindex, -⟩ := exec_disk hex
        exact h.disk hB.notes hv hloc hpre hd hindex hkeeps
    | index o =>
        obtain ⟨hi, hdisk, -⟩ := exec_index hex
        exact h.index hB.lineage hB.notes hv hloc hpre hi hdisk hdrain
    | fetch o =>
        obtain ⟨-, hdisk, hindex⟩ := exec_fetch hex
        obtain ⟨lead, asked, stored, rx, heard, hnext⟩ := fetchNext_eq v.loc o r
        have hframe : Kept k s' ws :=
          h.frame_index hB.notes (State.live_of_disk hdisk) hindex
        change Kept k s' (Function.update ws t (some ⟨v.job, v.parent, fetchNext v.loc o r⟩))
        rw [hnext]
        exact hframe.move hv rfl (fun _ _ => rfl) rfl rfl
    | snapshotKeys =>
        obtain ⟨hr, hdisk, -, hindex⟩ := exec_snapshotKeys hex
        refine Kept.move (h.frame hB.notes (State.live_of_disk hdisk) ?_) hv rfl
          (fun _ _ => rfl) rfl rfl
        intro hk hs
        refine ⟨hs.snapshot (hr ▸ hk) hindex, ?_⟩
        rw [hindex]
        exact id
  spawn {s ws t v u j} hB h hv hu _ _ _ := by
    refine Kept.birth (h.move hv ?_ ?_ ?_ ?_) u j (some t)
    · rfl
    · exact fun _ _ => rfl
    · rfl
    · rfl
  join {s ws t v hd w x} hB h hv _ _ _ := h.joined hB hv hd (some x)
  lost {s ws t v hd w l} hB h hv _ _ _ := h.joined hB hv hd none
  cancel {s ws t v p} hB h hv _ _ :=
    Kept.move (s := { s with fetch := s.fetch.dropGuard t })
      (h.frame_index hB.notes id rfl) hv rfl (fun _ _ => rfl) rfl rfl

/-- A chunk that a task has noted is in the filter, as long as it does not leave
the cache and swaps drain only what the other rebuilds have seen. -/
theorem noted_key_kept {G : State → Event (machine cfg) → Prop} {c : Config (machine cfg)}
    (hG : ∀ s e, G s e → (anyEnv cfg).allowed s e ∧ drainsCovered s e ∧ keepsLive k s e)
    (hrun : Config.Reach G (.init (State.new cfg)) c) {p : Nat} {d : Bytes}
    (hjob : c.job p = some (Job.insertTask k d)) (hnoted : p ∈ c.state.index.noted) :
    c.state.index.bloom.contains (keyDigest cfg.sha256 k) = true := by
  have hresp : Respects (anyEnv cfg) G := Env.allowed_respects fun _ _ h => (hG _ _ h).1
  have hsound := (base_sound hresp).and (kept_keeps fun s e h => (hG s e h).2)
  have h0 : Kept k (State.new cfg) (fun _ => none : Views (discipline (anyEnv cfg))) := by
    intro t v hv
    cases hv
  obtain ⟨ws, hA, hB, hK⟩ := hsound.reach
    ⟨(Settled.new (anyEnv cfg)).base (.new cfg), h0⟩ hrun
  obtain ⟨th, hth, hthjob⟩ := Option.map_eq_some_iff.mp hjob
  obtain ⟨v, hv, hok⟩ := hA.thread p th hth
  obtain ⟨w, hw, hnote⟩ := hB.notes.noted p hnoted
  rw [hv] at hw
  cases hw
  exact (hK p v hv).noted d (hok.job.symm.trans hthjob) hnote

end BlobCache.Node
