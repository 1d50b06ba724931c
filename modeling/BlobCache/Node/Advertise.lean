import BlobCache.Node.Lengths
import BlobCache.Node.Notes

/-!
What the local Bloom filter says about the cache. A key that is live and whose
last insert has been noted is in the filter, unless two rebuilds overlap in an
unlucky way: the one that swaps first drains the digest, and the other, whose
snapshot is older than the insert, then swaps in a filter without it.
-/

namespace BlobCache.Node

open Cache Conc

variable {cfg : NodeConfig}

/-- The key is in the index of the disk cache. -/
def State.live (s : State) (k : ChunkKey) : Prop := k ∈ s.disk.inner.entries.keys

theorem State.live_iff {s : State} {k : ChunkKey} :
    s.live k ↔ ∃ n, s.disk.size? k = some n := by
  simp only [State.live, Disk.size?, FinMap.mem_keys_iff, Option.map_eq_some_iff]
  constructor
  · rintro ⟨e, he⟩
    exact ⟨e.size, e, he, rfl⟩
  · rintro ⟨n, e, he, -⟩
    exact ⟨e, he⟩

/-- Every live key whose last insert has been noted tests positive. The noting
task is the parent of the insert. -/
def Advertised (c : Config (machine cfg)) : Prop :=
  ∀ k t th p, c.state.live k → c.state.disk.lastInsert.get? k = some t →
    c.threads[t]? = some th → th.parent = some p → p ∈ c.state.index.noted →
    c.state.index.bloom.contains (keyDigest cfg.sha256 k) = true

/-- A rebuild that swaps its filter in does not drain the digest of a live key
that another rebuild in progress has missed. -/
def drainCovered (cfg : NodeConfig) (s : State) (t : Nat) : Op → Prop
  | .index (.swapBloom _) =>
      ∀ k, s.live k → keyDigest cfg.sha256 k ∈ s.index.pending →
        ∀ u keys, u ≠ t → s.index.snapshots.get? u = some keys → k ∈ keys
  | _ => True

def drainsCovered (s : State) : Event (machine cfg) → Prop
  | .op t o _ => drainCovered cfg s t o
  | _ => True

/-- The digest is on its way into the next filter, or it is in this one and no
rebuild in progress will lose it. -/
def Safe (cfg : NodeConfig) (s : State) (k : ChunkKey) : Prop :=
  keyDigest cfg.sha256 k ∈ s.index.pending ∨
    s.index.bloom.contains (keyDigest cfg.sha256 k) = true ∧
      ∀ r keys, s.index.snapshots.get? r = some keys → k ∈ keys

section

variable {env : Env cfg} {s s' : State} {ws ws' : Views (discipline env)} {t : Nat}
  {v v' : View (discipline env)} {k : ChunkKey} {p : Nat} {w w' : View (discipline env)}

/-- The task `p` belongs to the last insert of the live key `k`. -/
def TaskOf (s : State) (ws : Views (discipline env)) (k : ChunkKey) (p : Nat)
    (w : View (discipline env)) : Prop :=
  s.live k ∧ ∃ t v, s.disk.lastInsert.get? k = some t ∧ ws t = some v ∧
    v.parent = some p ∧ ws p = some w

theorem TaskOf.job (hL : Lineage ws) (hN : Notes s ws) (h : TaskOf s ws k p w) :
    ∃ d, w.job = .insertTask k d := by
  obtain ⟨-, t, v, hlast, hv, hparent, hw⟩ := h
  obtain ⟨v', d, hv', hjob, -⟩ := hN.last k t hlast
  rw [hv] at hv'
  cases hv'
  obtain ⟨w', hw', hwjob, -⟩ := hL.insert t v k d p hv hjob hparent
  rw [hw] at hw'
  cases hw'
  exact ⟨d, hwjob⟩

/-- A task after a step was the task of its key before, when the step does not
insert the key. -/
theorem TaskOf.back {R : Nat → View (discipline env) → View (discipline env) → Prop}
    (h : TaskOf s' ws' k p w') (hL : Lineage ws) (hN : Notes s ws) (hlive : s'.live k → s.live k)
    (hlast : s'.disk.lastInsert.get? k = s.disk.lastInsert.get? k)
    (hfwd : ∀ x w, ws x = some w → ∃ w', ws' x = some w' ∧ w'.parent = w.parent ∧ R x w w') :
    ∃ w, TaskOf s ws k p w ∧ R p w w' := by
  obtain ⟨hk, t, v', ht, hv', hparent, hw'⟩ := h
  rw [hlast] at ht
  obtain ⟨v, d, hv, hjob, -⟩ := hN.last k t ht
  obtain ⟨v'', hv'', hparent'', -⟩ := hfwd t v hv
  rw [hv'] at hv''
  cases hv''
  rw [hparent] at hparent''
  obtain ⟨w, hw, -⟩ := hL.insert t v k d p hv hjob hparent''.symm
  obtain ⟨w'', hw'', -, hR⟩ := hfwd p w hw
  rw [hw'] at hw''
  cases hw''
  exact ⟨w, ⟨hlive hk, t, v, ht, hv, hparent''.symm, hw⟩, hR⟩

/-- The views before and after a step of thread `t`. -/
theorem fwd_update (hv : ws t = some v) (l : Loc) (x : Nat) (w : View (discipline env))
    (hw : ws x = some w) :
    ∃ w', Function.update ws t (some ⟨v.job, v.parent, l⟩) x = some w' ∧
      w'.parent = w.parent ∧ (w' = w ∨ x = t ∧ w = v ∧ w' = ⟨v.job, v.parent, l⟩) := by
  by_cases hxt : x = t
  · subst hxt
    rw [hv] at hw
    cases hw
    exact ⟨_, Function.update_self .., rfl, .inr ⟨rfl, rfl, rfl⟩⟩
  · exact ⟨w, by simpa [hxt] using hw, rfl, .inl rfl⟩

/-- Nobody pushes or notes anything. -/
def SameNotes (ws ws' : Views (discipline env)) : Prop :=
  ∀ x w, ws x = some w → ∃ w', ws' x = some w' ∧ w'.parent = w.parent ∧
    Loc.pushed w'.loc = Loc.pushed w.loc ∧ Loc.noted w'.loc = Loc.noted w.loc

theorem SameNotes.update (hv : ws t = some v) {l : Loc} (hpushed : l.pushed = Loc.pushed v.loc)
    (hnoted : l.noted = Loc.noted v.loc) :
    SameNotes ws (Function.update ws t (some ⟨v.job, v.parent, l⟩)) := by
  intro x w hw
  obtain ⟨w', hw', hparent, hR⟩ := fwd_update hv l x w hw
  refine ⟨w', hw', hparent, ?_⟩
  rcases hR with hR | ⟨-, hwv, hwv'⟩
  · rw [hR]
    exact ⟨rfl, rfl⟩
  · rw [hwv, hwv']
    exact ⟨hpushed, hnoted⟩

theorem SameNotes.birth (ht : ws t = none) : SameNotes ws (Function.update ws t (some v')) := by
  intro x w hw
  have hxt : x ≠ t := by
    rintro rfl
    rw [ht] at hw
    cases hw
  exact ⟨w, by simpa [hxt] using hw, rfl, rfl, rfl⟩

theorem SameNotes.trans {ws'' : Views (discipline env)} (h : SameNotes ws ws')
    (h' : SameNotes ws' ws'') : SameNotes ws ws'' := by
  intro x w hw
  obtain ⟨w', hw', hparent, hpushed, hnoted⟩ := h x w hw
  obtain ⟨w'', hw'', hparent', hpushed', hnoted'⟩ := h' x w' hw'
  exact ⟨w'', hw'', hparent'.trans hparent, hpushed'.trans hpushed, hnoted'.trans hnoted⟩

/-- What the invariant says of one key. -/
def CoveredAt (cfg : NodeConfig) (s : State) (k : ChunkKey) (l : Loc) : Prop :=
  (l.pushed = true → Safe cfg s k) ∧
    (l.noted = true → s.index.bloom.contains (keyDigest cfg.sha256 k) = true)

def Covered (s : State) (ws : Views (discipline env)) : Prop :=
  ∀ k p w, TaskOf s ws k p w → CoveredAt cfg s k w.loc

/-- A step that pushes and notes nothing leaves a key it does not insert as it
was, when it takes nothing out of the index. -/
theorem Covered.keepAt (h : Covered s ws) (hw' : TaskOf s' ws' k p w') (hL : Lineage ws)
    (hN : Notes s ws) (hsame : SameNotes ws ws') (hlive : s'.live k → s.live k)
    (hlast : s'.disk.lastInsert.get? k = s.disk.lastInsert.get? k)
    (hsafe : s.live k → Safe cfg s k → Safe cfg s' k)
    (hbloom : ∀ d, s.index.bloom.contains d = true → s'.index.bloom.contains d = true) :
    CoveredAt cfg s' k w'.loc := by
  obtain ⟨w, hw, hpushed, hnoted⟩ := hw'.back hL hN hlive hlast hsame
  obtain ⟨hp, hn⟩ := h k p w hw
  change (Loc.pushed w'.loc = true → _) ∧ (Loc.noted w'.loc = true → _)
  rw [hpushed, hnoted]
  exact ⟨fun hpw => hsafe hw.1 (hp hpw), fun hnw => hbloom _ (hn hnw)⟩

theorem Covered.keep (h : Covered s ws) (hL : Lineage ws) (hN : Notes s ws)
    (hsame : SameNotes ws ws') (hdisk : s'.disk = s.disk)
    (hsafe : ∀ k, s.live k → Safe cfg s k → Safe cfg s' k)
    (hbloom : ∀ d, s.index.bloom.contains d = true → s'.index.bloom.contains d = true) :
    Covered s' ws' := by
  intro k p w' hw'
  refine h.keepAt hw' hL hN hsame ?_ (by rw [hdisk]) (hsafe k) hbloom
  intro hk
  rw [State.live, hdisk] at hk
  exact hk

/-- A step that touches neither the disk nor the index. -/
theorem Covered.frame (h : Covered s ws) (hL : Lineage ws) (hN : Notes s ws)
    (hsame : SameNotes ws ws') (hdisk : s'.disk = s.disk) (hindex : s'.index = s.index) :
    Covered s' ws' := by
  refine h.keep hL hN hsame hdisk ?_ ?_
  · intro k _ hk
    rw [Safe, hindex]
    exact hk
  · intro d hd
    rw [hindex]
    exact hd

/-- The task of an insert that has not passed the lock has pushed nothing. -/
theorem Notes.fresh (hL : Lineage ws) (hN : Notes s ws) (hv : ws t = some v) {d : Bytes}
    (hjob : v.job = .insert k d) (hlanded : Loc.landed v.loc = false)
    (hparent : v.parent = some p) (hw : ws p = some w) :
    Loc.pushed w.loc = false ∧ Loc.noted w.loc = false := by
  obtain ⟨y, hy, hyjob, hychild⟩ := hL.insert t v k d p hv hjob hparent
  rw [hw] at hy
  cases hy
  obtain ⟨hpl, hnp⟩ := hN.order p w hw
  have hpushed : Loc.pushed w.loc = false := by
    by_contra hpush
    obtain ⟨c, z, hc, hz, hzl⟩ := hN.landed p w k d hw hyjob (hpl (by simpa using hpush))
    rw [hychild] at hc
    cases hc
    rw [hv] at hz
    cases hz
    rw [hlanded] at hzl
    cases hzl
  refine ⟨hpushed, ?_⟩
  by_contra hnote
  rw [hnp (by simpa using hnote)] at hpushed
  cases hpushed

theorem Covered.disk (h : Covered s ws) (hL : Lineage ws) (hN : Notes s ws)
    (hv : ws t = some v) (hloc : Loc.job v.loc = v.job) {o : DiskOp} {c : DiskChoice} {r : o.Resp}
    (hpre : diskPre env v.loc o) (hex : s.disk.exec cfg.disk t c o = (r, s'.disk))
    (hindex : s'.index = s.index) :
    Covered s' (Function.update ws t (some ⟨v.job, v.parent, diskNext v.loc o r⟩)) := by
  obtain ⟨file, hnext⟩ := diskNext_eq v.loc o r
  rw [hnext]
  intro k p w' hw'
  by_cases hins : ∃ n, o = .insertSection k n
  · -- the key of this insert: its own task has pushed nothing yet
    obtain ⟨n, rfl⟩ := hins
    obtain ⟨d, hjob, -, -, hlanded⟩ := hpre
    obtain ⟨-, u, x, hu, hx, hparent, hw⟩ := hw'
    have hlast : s'.disk.lastInsert = s.disk.lastInsert.insert k t :=
      congrArg Disk.lastInsert (congrArg Prod.snd hex).symm
    rw [hlast, FinMap.get?_insert_self] at hu
    cases hu
    rw [Function.update_self] at hx
    cases hx
    have hjob' : v.job = .insert k d := hloc.symm.trans hjob
    obtain ⟨y, hy, hyjob, -⟩ := hL.insert t v k d p hv hjob' hparent
    have hpt : p ≠ t := by
      rintro rfl
      rw [hv] at hy
      cases hy
      rw [hjob'] at hyjob
      cases hyjob
    rw [Function.update_of_ne hpt] at hw
    obtain ⟨hpushed, hnoted⟩ := Notes.fresh hL hN hv hjob' hlanded hparent hw
    change (Loc.pushed w'.loc = true → _) ∧ (Loc.noted w'.loc = true → _)
    rw [hpushed, hnoted]
    exact ⟨nofun, nofun⟩
  · refine h.keepAt hw' hL hN (.update hv rfl rfl) ?_ ?_ ?_ ?_
    · intro hk
      obtain ⟨n, hn⟩ := State.live_iff.mp hk
      have hd : (s.disk.exec cfg.disk t c o).2 = s'.disk := congrArg Prod.snd hex
      rw [← hd] at hn
      rcases Disk.size?_of_exec k hn with hold | hput
      · exact State.live_iff.mpr ⟨n, hold⟩
      · exact absurd ⟨n, hput⟩ hins
    · rcases lastInsert_exec hex with hsame | ⟨k', n, hput, hlast⟩
      · rw [hsame]
      · have hne : k ≠ k' := by
          rintro rfl
          exact hins ⟨n, hput⟩
        rw [hlast, FinMap.get?_insert, if_neg hne]
    · intro _ hk
      rw [Safe, hindex]
      exact hk
    · intro d hd
      rw [hindex]
      exact hd

/-- A rebuild swaps its filter in. What it drains it takes over, and what the
filter had it has seen in its snapshot. -/
theorem Safe.swap {keys : List ChunkKey} (h : Safe cfg s k)
    (hsnap : s.index.snapshots.get? t = some keys) (hindex : s'.index =
      (s.index.swapBloom t (PeerIndex.bloomOf cfg.index keys)).2)
    (hdrain : keyDigest cfg.sha256 k ∈ s.index.pending →
      ∀ u keys, u ≠ t → s.index.snapshots.get? u = some keys → k ∈ keys) :
    s'.index.bloom.contains (keyDigest cfg.sha256 k) = true ∧ Safe cfg s' k := by
  have hcontains : s'.index.bloom.contains (keyDigest cfg.sha256 k) = true := by
    rw [hindex]
    rcases h with hpending | ⟨-, hall⟩
    · exact Bloom.insertAll_contains hpending
    · exact Bloom.insertAll_contains_of_contains (PeerIndex.bloomOf_contains (hall t keys hsnap))
  refine ⟨hcontains, .inr ⟨hcontains, ?_⟩⟩
  intro u keys' hu
  rw [hindex] at hu
  change (s.index.snapshots.erase t).get? u = some keys' at hu
  rw [FinMap.get?_erase] at hu
  split at hu
  · cases hu
  · rename_i hut
    rcases h with hpending | ⟨-, hall⟩
    · exact hdrain hpending u keys' hut hu
    · exact hall u keys' hu

/-- A rebuild takes its snapshot, which has every key that is live. -/
theorem Safe.snapshot {keys : List ChunkKey} (h : Safe cfg s k) (hk : k ∈ keys)
    (hindex : s'.index = { s.index with snapshots := s.index.snapshots.insert t keys }) :
    Safe cfg s' k := by
  rw [Safe, hindex]
  refine h.imp id fun hin => ⟨hin.1, ?_⟩
  intro u keys' hu
  rw [FinMap.get?_insert] at hu
  split at hu
  · cases hu
    exact hk
  · exact hin.2 u keys' hu

/-- A task pushes a digest. -/
theorem Safe.push {digest : Digest} (h : Safe cfg s k)
    (hindex : s'.index = { s.index with pending := s.index.pending ++ [digest] }) :
    Safe cfg s' k := by
  rw [Safe, hindex]
  exact h.imp (List.mem_append_left _) id

theorem contains_of_note {digest d : Digest} (h : s.index.bloom.contains d = true)
    (hindex : s'.index = (s.index.bloomInsert t digest).2) :
    s'.index.bloom.contains d = true := by
  rw [hindex]
  exact Bloom.insert_contains_of_contains h

/-- A task notes a digest. -/
theorem Safe.note {digest : Digest} (h : Safe cfg s k)
    (hindex : s'.index = (s.index.bloomInsert t digest).2) : Safe cfg s' k := by
  rcases h with hpending | ⟨hcon, hall⟩
  · left
    rw [hindex]
    exact hpending
  · right
    refine ⟨contains_of_note hcon hindex, ?_⟩
    rw [hindex]
    exact hall

theorem Covered.index (h : Covered s ws) (hL : Lineage ws) (hN : Notes s ws)
    (hv : ws t = some v) (hloc : Loc.job v.loc = v.job) {o : IndexOp} {r : o.Resp}
    (hpre : indexPre cfg v.loc o) (hex : s.index.exec cfg.index t o = (r, s'.index))
    (hdisk : s'.disk = s.disk) (hdrain : drainCovered cfg s t (.index o)) :
    Covered s' (Function.update ws t (some ⟨v.job, v.parent, indexNext v.loc o r⟩)) := by
  have hlive {k : ChunkKey} (hk : s'.live k) : s.live k := by
    rw [State.live, hdisk] at hk
    exact hk
  have hlast {k : ChunkKey} : s'.disk.lastInsert.get? k = s.disk.lastInsert.get? k := by
    rw [hdisk]
  cases o with
  | swapBloom new =>
      have hindex : s'.index = (s.index.swapBloom t new).2 := (congrArg Prod.snd hex).symm
      obtain ⟨keys, hsnap, rfl⟩ := hpre
      have hsnap' : s.index.snapshots.get? t = some keys := (hN.snap_of hv).trans hsnap
      intro k p w' hw'
      obtain ⟨w, hw, hpushed, hnoted⟩ := hw'.back hL hN hlive hlast (SameNotes.update hv rfl rfl)
      obtain ⟨hp, -⟩ := h k p w hw
      have hswap (hpw : Loc.pushed w.loc = true) :=
        (hp hpw).swap hsnap' hindex (hdrain k hw.1)
      change (Loc.pushed w'.loc = true → _) ∧ (Loc.noted w'.loc = true → _)
      rw [hpushed, hnoted]
      obtain ⟨-, -, -, -, -, -, hwp⟩ := hw
      exact ⟨fun hpw => (hswap hpw).2, fun hnw => (hswap ((hN.order p w hwp).2 hnw)).1⟩
  | pushPending digest =>
      have hindex : s'.index = { s.index with pending := s.index.pending ++ [digest] } :=
        (congrArg Prod.snd hex).symm
      obtain ⟨key, data, hjob, rfl, -, -⟩ := hpre
      intro k p w' hw'
      obtain ⟨w, hw, hR⟩ := hw'.back hL hN hlive hlast (fwd_update hv _)
      obtain ⟨hp, hn⟩ := h k p w hw
      have hbloom : s'.index.bloom = s.index.bloom := by rw [hindex]
      rcases hR with rfl | ⟨-, hwv, rfl⟩
      · exact ⟨fun hpw => (hp hpw).push hindex, fun hnw => hbloom ▸ hn hnw⟩
      · subst hwv
        obtain ⟨d, hwjob⟩ := hw.job hL hN
        rw [← hloc, hjob] at hwjob
        cases hwjob
        refine ⟨fun _ => .inl ?_, fun hnw => hbloom ▸ hn hnw⟩
        rw [hindex]
        exact List.mem_append_right _ (List.mem_singleton.mpr rfl)
  | bloomInsert digest =>
      have hindex : s'.index = (s.index.bloomInsert t digest).2 := (congrArg Prod.snd hex).symm
      obtain ⟨key, data, hjob, rfl, -⟩ := hpre
      intro k p w' hw'
      obtain ⟨w, hw, hR⟩ := hw'.back hL hN hlive hlast (fwd_update hv _)
      obtain ⟨hp, hn⟩ := h k p w hw
      rcases hR with rfl | ⟨-, hwv, rfl⟩
      · exact ⟨fun hpw => (hp hpw).note hindex, fun hnw => contains_of_note (hn hnw) hindex⟩
      · subst hwv
        refine ⟨fun hpw => (hp hpw).note hindex, fun _ => ?_⟩
        obtain ⟨d, hwjob⟩ := hw.job hL hN
        rw [← hloc, hjob] at hwjob
        cases hwjob
        rw [hindex]
        exact Bloom.insert_contains_self _ _
  | _ =>
      obtain ⟨remote, version, hframe⟩ := PeerIndex.exec_frame hex rfl
      refine h.keep hL hN (.update hv rfl rfl) hdisk ?_ ?_
      · intro k _ hk
        rw [Safe, hframe]
        exact hk
      · intro d hd
        rw [hframe]
        exact hd

end

/-- Live keys that have been noted stay in the filter, when no swap drains a
digest that another rebuild has missed. -/
theorem covered_keeps {env : Env cfg} {G : State → Event (machine cfg) → Prop}
    (hG : ∀ s e, G s e → drainsCovered s e) :
    Keeps (discipline env) G (Base env) Covered where
  start hB h ht _ _ _ := h.frame hB.lineage hB.notes (.birth ht) rfl rfl
  op {s ws t v o c r s'} hB h hv hpre hg hex _ := by
    change exec cfg t o c s = some (r, s') at hex
    have hloc := (hB.core.job t v hv).1
    have hdrain : drainCovered cfg s t o := hG _ _ hg
    cases o with
    | disk o =>
        obtain ⟨hd, hindex, -⟩ := exec_disk hex
        exact h.disk hB.lineage hB.notes hv hloc hpre hd hindex
    | index o =>
        obtain ⟨hi, hdisk, -⟩ := exec_index hex
        exact h.index hB.lineage hB.notes hv hloc hpre hi hdisk hdrain
    | fetch o =>
        obtain ⟨-, hdisk, hindex⟩ := exec_fetch hex
        obtain ⟨lead, asked, stored, rx, heard, hnext⟩ := fetchNext_eq v.loc o r
        change Covered s' (Function.update ws t (some ⟨v.job, v.parent, fetchNext v.loc o r⟩))
        rw [hnext]
        exact h.frame hB.lineage hB.notes (.update hv rfl rfl) hdisk hindex
    | snapshotKeys =>
        obtain ⟨hr, hdisk, -, hindex⟩ := exec_snapshotKeys hex
        refine h.keep hB.lineage hB.notes (.update hv rfl rfl) hdisk ?_ ?_
        · intro k hk hsafe
          exact hsafe.snapshot (hr ▸ hk) hindex
        · intro d hd
          rw [hindex]
          exact hd
  spawn {s ws t v u j} hB h hv hu _ _ _ := by
    have hut : u ≠ t := by
      rintro rfl
      rw [hv] at hu
      cases hu
    have hmove : SameNotes ws (Function.update ws t (some (v.spawned ⟨u, j⟩))) :=
      .update hv rfl rfl
    exact h.frame hB.lineage hB.notes (hmove.trans (.birth (by simpa [hut] using hu))) rfl rfl
  join hB h hv _ _ _ := h.frame hB.lineage hB.notes (.update hv rfl rfl) rfl rfl
  lost hB h hv _ _ _ := h.frame hB.lineage hB.notes (.update hv rfl rfl) rfl rfl
  cancel hB h hv _ _ := h.frame hB.lineage hB.notes (.update hv rfl rfl) rfl rfl

/-- No false negatives, as long as every swap drains only what the other
rebuilds have seen. -/
theorem noted_keys_advertised {c : Config (machine cfg)}
    (hrun : Config.Reach (fun s e => (anyEnv cfg).allowed s e ∧ drainsCovered s e)
      (.init (State.new cfg)) c) : Advertised c := by
  have hresp : Respects (anyEnv cfg) fun s e => (anyEnv cfg).allowed s e ∧ drainsCovered s e :=
    Env.allowed_respects fun _ _ h => h.1
  have hsound := (base_sound hresp).and (covered_keeps fun _ _ h => h.2)
  have h0 : Covered (State.new cfg) (fun _ => none : Views (discipline (anyEnv cfg))) := by
    rintro k p w ⟨-, t, v, -, hv, -⟩
    cases hv
  obtain ⟨ws, hA, hB, hC⟩ := hsound.reach
    ⟨(Settled.new (anyEnv cfg)).base (.new cfg), h0⟩ hrun
  intro k t th p hlive hlast hth hparent hnoted
  obtain ⟨v, hv, hok⟩ := hA.thread t th hth
  obtain ⟨w, hw, hnote⟩ := hB.notes.noted p hnoted
  exact (hC k p w ⟨hlive, t, v, hlast, hv, hok.parent.symm.trans hparent, hw⟩).2 hnote

/-- The swap of a rebuild that is alone loses nothing. -/
def swapsAlone (s : State) : Event (machine cfg) → Bool
  | .op t (.index (.swapBloom _)) _ => s.index.snapshots.keys.all (· == t)
  | _ => true

theorem drainsCovered_of_swapsAlone {s : State} {e : Event (machine cfg)}
    (h : swapsAlone s e = true) : drainsCovered s e := by
  cases e with
  | op t o c =>
      cases o with
      | index o =>
          cases o with
          | swapBloom new =>
              intro k _ _ u keys hut hu
              have hmem : u ∈ s.index.snapshots.keys := FinMap.mem_keys_iff.mpr ⟨keys, hu⟩
              have halone := List.all_eq_true.mp h u hmem
              exact absurd (eq_of_beq halone) hut
          | _ => trivial
      | _ => trivial
  | _ => trivial

/-- Jobs of the two schedules below. -/
def rebuildJobs : List Job :=
  [.insertReceivedChunk (sampleKey 0) [1, 2, 3, 4], .bloomRebuildTick, .clearLocalState]

theorem rebuildJobs_ok (j : Job) (hj : decide (j ∈ rebuildJobs) = true) :
    (anyEnv sampleConfig).jobOk j := by
  have hmem := of_decide_eq_true hj
  simp only [rebuildJobs, List.mem_cons, List.not_mem_nil, or_false] at hmem
  rcases hmem with rfl | rfl | rfl
  · exact ⟨trivial, trivial⟩
  · trivial
  · trivial

/-- What a schedule ends with: the chunk is live and its insert, thread `t`, has
been noted by its task. -/
def storedAndNoted (t p : Nat) (c : Config (machine sampleConfig)) : Bool :=
  decide (sampleKey 0 ∈ c.state.disk.inner.entries.keys) &&
    decide (c.state.disk.lastInsert.get? (sampleKey 0) = some t) &&
    decide (c.threads[t]?.map Thread.parent = some (some p)) &&
    decide (p ∈ c.state.index.noted)

/-- A chunk is stored and noted between the snapshot and the swap of the
rebuild loop. -/
def pendingSchedule : List (Label (machine sampleConfig)) :=
  [.start .bloomRebuildTick] ++ turns 0 1 ++ turns 1 2 ++
    [.start (.insertReceivedChunk (sampleKey 0) [1, 2, 3, 4])] ++ storeTurns 2 ++ turns 1 1

theorem noted_keys_advertised_across_swap :
    ∃ c : Config (machine sampleConfig),
      Config.Reach (fun s e => (anyEnv sampleConfig).allowed s e ∧ drainsCovered s e)
        (.init (State.new sampleConfig)) c ∧ c.state.live (sampleKey 0) ∧
      c.state.index.bloom.contains (keyDigest sampleConfig.sha256 (sampleKey 0)) = true := by
  obtain ⟨c, hrun, hc⟩ := Config.reach_of_replay
    (G := fun s e => gate (fun j => decide (j ∈ rebuildJobs)) (fun _ _ => true) s e &&
      swapsAlone s e)
    (H := fun s e => (anyEnv sampleConfig).allowed s e ∧ drainsCovered s e)
    (fun s e h => by
      simp only [Bool.and_eq_true] at h
      exact ⟨gate_allowed _ _ rebuildJobs_ok (fun _ _ _ => trivial) s e h.1,
        drainsCovered_of_swapsAlone h.2⟩)
    (.init (State.new sampleConfig)) pendingSchedule (storedAndNoted 4 3) (by decide +kernel)
  simp only [storedAndNoted, Bool.and_eq_true, decide_eq_true_eq] at hc
  obtain ⟨⟨⟨hlive, hlast⟩, hparent⟩, hnoted⟩ := hc
  obtain ⟨th, hth, hparent⟩ := Option.map_eq_some_iff.mp hparent
  exact ⟨c, hrun, hlive, noted_keys_advertised hrun _ 4 th 3 hlive hlast hth hparent hnoted⟩

/-- `clear_local_state` takes its snapshot, a chunk is stored and noted, the
rebuild loop drains its digest, and then `clear_local_state` swaps in a filter
without it. -/
def overlapSchedule : List (Label (machine sampleConfig)) :=
  [.start .clearLocalState] ++ turns 0 8 ++
    [.start (.insertReceivedChunk (sampleKey 0) [1, 2, 3, 4])] ++ storeTurns 1 ++
    [.start .bloomRebuildTick] ++ turns 4 1 ++ turns 5 4 ++ turns 0 1

theorem overlapping_rebuilds_lose_a_key :
    ∃ c : Config (machine sampleConfig),
      Config.Reach (anyEnv sampleConfig).allowed (.init (State.new sampleConfig)) c ∧
      ¬ Advertised c := by
  obtain ⟨c, hrun, hc⟩ := Config.reach_of_replay
    (gate_allowed (fun j => decide (j ∈ rebuildJobs)) (fun _ _ => true) rebuildJobs_ok
      fun _ _ _ => trivial)
    (.init (State.new sampleConfig)) overlapSchedule
    (fun c => storedAndNoted 3 2 c &&
      !c.state.index.bloom.contains (keyDigest sampleConfig.sha256 (sampleKey 0)))
    (by decide +kernel)
  simp only [storedAndNoted, Bool.and_eq_true, decide_eq_true_eq, Bool.not_eq_true'] at hc
  obtain ⟨⟨⟨⟨hlive, hlast⟩, hparent⟩, hnoted⟩, hmissing⟩ := hc
  obtain ⟨th, hth, hparent⟩ := Option.map_eq_some_iff.mp hparent
  refine ⟨c, hrun, fun hadv => ?_⟩
  rw [hadv _ 3 th 2 hlive hlast hth hparent hnoted] at hmissing
  cases hmissing

end BlobCache.Node
