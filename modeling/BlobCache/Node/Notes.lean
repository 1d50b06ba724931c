import BlobCache.Node.Lineage

/-!
How far inserts, notes and rebuilds have come. A task notes a key only after
its `insert` has passed the lock; the history that the state keeps (the last
insert of each key, the tasks that have noted, the snapshots of the rebuilds
in progress) agrees with the local states of the threads.
-/

namespace BlobCache.Node

open Cache Conc

variable {cfg : NodeConfig} {env : Env cfg}

structure Notes (s : State) (ws : Views (discipline env)) : Prop where
  order : ∀ t v, ws t = some v → (Loc.pushed v.loc = true → Loc.landed v.loc = true) ∧
    (Loc.noted v.loc = true → Loc.pushed v.loc = true)
  landed : ∀ p w k d, ws p = some w → w.job = .insertTask k d → Loc.landed w.loc = true →
    ∃ t v, Loc.child w.loc = some t ∧ ws t = some v ∧ Loc.landed v.loc = true
  last : ∀ k t, s.disk.lastInsert.get? k = some t →
    ∃ v d, ws t = some v ∧ v.job = .insert k d ∧ Loc.landed v.loc = true
  noted : ∀ p, p ∈ s.index.noted → ∃ w, ws p = some w ∧ Loc.noted w.loc = true
  snap : ∀ t, s.index.snapshots.get? t = (locsOf ws t).bind Loc.snap

namespace Notes

variable {s s' : State} {ws : Views (discipline env)} {t : Nat} {v v' : View (discipline env)}

/-- A step of one thread. What it has reached stays reached. -/
theorem move (h : Notes s ws) (hv : ws t = some v) (hjob : v'.job = v.job)
    (hmono : Loc.landed v.loc = true → Loc.landed v'.loc = true)
    (hnoted : Loc.noted v.loc = true → Loc.noted v'.loc = true)
    (horder : (Loc.pushed v'.loc = true → Loc.landed v'.loc = true) ∧
      (Loc.noted v'.loc = true → Loc.pushed v'.loc = true))
    (hlanded : ∀ k d, v.job = .insertTask k d → Loc.landed v'.loc = true →
      ∃ c w, Loc.child v'.loc = some c ∧ ws c = some w ∧ Loc.landed w.loc = true)
    (hlast : ∀ k u, s'.disk.lastInsert.get? k = some u → s.disk.lastInsert.get? k = some u ∨
      u = t ∧ ∃ d, v.job = .insert k d ∧ Loc.landed v'.loc = true)
    (hnotes : ∀ p, p ∈ s'.index.noted → p ∈ s.index.noted ∨ p = t ∧ Loc.noted v'.loc = true)
    (hsnap : s'.index.snapshots.get? t = Loc.snap v'.loc)
    (hothers : ∀ u, u ≠ t → s'.index.snapshots.get? u = s.index.snapshots.get? u) :
    Notes s' (Function.update ws t (some v')) := by
  have hold (x : Nat) (w : View (discipline env)) (hw : ws x = some w) :
      ∃ w', Function.update ws t (some v') x = some w' ∧ w'.job = w.job ∧
        (Loc.landed w.loc = true → Loc.landed w'.loc = true) ∧
        (Loc.noted w.loc = true → Loc.noted w'.loc = true) := by
    by_cases hxt : x = t
    · subst hxt
      rw [hv] at hw
      cases hw
      exact ⟨v', by simp, hjob, hmono, hnoted⟩
    · exact ⟨w, by simpa [hxt] using hw, rfl, id, id⟩
  refine ⟨?_, ?_, ?_, ?_, ?_⟩
  · intro x w hw
    rcases update_eq_some hw with ⟨-, rfl⟩ | ⟨-, hw⟩
    · exact horder
    · exact h.order x w hw
  · intro p w k d hw hj hl
    have hchild : ∃ c x, Loc.child w.loc = some c ∧ ws c = some x ∧ Loc.landed x.loc = true := by
      rcases update_eq_some hw with ⟨-, rfl⟩ | ⟨-, hw⟩
      · exact hlanded k d (hjob ▸ hj) hl
      · exact h.landed p w k d hw hj hl
    obtain ⟨c, x, hc, hx, hxl⟩ := hchild
    obtain ⟨x', hx', -, hxl', -⟩ := hold c x hx
    exact ⟨c, x', hc, hx', hxl' hxl⟩
  · intro k u hu
    rcases hlast k u hu with hu | ⟨rfl, d, hj, hl⟩
    · obtain ⟨w, d, hw, hj, hl⟩ := h.last k u hu
      obtain ⟨w', hw', hj', hl', -⟩ := hold u w hw
      exact ⟨w', d, hw', hj'.trans hj, hl' hl⟩
    · exact ⟨v', d, by simp, hjob.trans hj, hl⟩
  · intro p hp
    rcases hnotes p hp with hp | ⟨rfl, hn⟩
    · obtain ⟨w, hw, hn⟩ := h.noted p hp
      obtain ⟨w', hw', -, -, hn'⟩ := hold p w hw
      exact ⟨w', hw', hn' hn⟩
    · exact ⟨v', by simp, hn⟩
  · intro u
    rw [locsOf_update]
    by_cases hut : u = t
    · subst hut
      rw [Function.update_self]
      exact hsnap
    · rw [Function.update_of_ne hut, hothers u hut]
      exact h.snap u

/-- A thread starts with nothing done. -/
theorem birth (h : Notes s ws) (ht : ws t = none) (j : Job) (parent : Option Nat) :
    Notes s (Function.update ws t (some ⟨j, parent, (discipline env).init j⟩)) := by
  refine ⟨?_, ?_, ?_, ?_, ?_⟩
  · intro x w hw
    rcases update_eq_some hw with ⟨-, rfl⟩ | ⟨-, hw⟩
    · exact ⟨fun hp => hp, fun hn => hn⟩
    · exact h.order x w hw
  · intro p w k d hw hj hl
    rcases update_eq_some hw with ⟨-, rfl⟩ | ⟨-, hw⟩
    · cases hl
    · obtain ⟨c, x, hc, hx, hxl⟩ := h.landed p w k d hw hj hl
      exact ⟨c, x, hc, update_of_free ht hx, hxl⟩
  · intro k u hu
    obtain ⟨w, d, hw, hj, hl⟩ := h.last k u hu
    exact ⟨w, d, update_of_free ht hw, hj, hl⟩
  · intro p hp
    obtain ⟨w, hw, hn⟩ := h.noted p hp
    exact ⟨w, update_of_free ht hw, hn⟩
  · intro u
    rw [locsOf_update]
    by_cases hut : u = t
    · subst hut
      rw [h.snap u, locsOf_none ht, Function.update_self]
      rfl
    · rw [Function.update_of_ne hut]
      exact h.snap u

theorem snap_of (h : Notes s ws) (hv : ws t = some v) :
    s.index.snapshots.get? t = Loc.snap v.loc := by
  rw [h.snap t, locsOf_eq hv]
  rfl

/-- A step that stores nothing. -/
theorem reindex (h : Notes s ws) (hv : ws t = some v) (hjob : v'.job = v.job)
    (hlanded : Loc.landed v'.loc = Loc.landed v.loc)
    (hchild : ∀ k d, v.job = .insertTask k d → Loc.landed v.loc = true →
      Loc.child v'.loc = Loc.child v.loc)
    (hdisk : s'.disk.lastInsert = s.disk.lastInsert)
    (hnoted : Loc.noted v.loc = true → Loc.noted v'.loc = true)
    (horder : (Loc.pushed v'.loc = true → Loc.landed v'.loc = true) ∧
      (Loc.noted v'.loc = true → Loc.pushed v'.loc = true))
    (hnotes : ∀ p, p ∈ s'.index.noted → p ∈ s.index.noted ∨ p = t ∧ Loc.noted v'.loc = true)
    (hsnap : s'.index.snapshots.get? t = Loc.snap v'.loc)
    (hothers : ∀ u, u ≠ t → s'.index.snapshots.get? u = s.index.snapshots.get? u) :
    Notes s' (Function.update ws t (some v')) := by
  refine h.move hv hjob (fun hl => hlanded.trans hl) hnoted horder ?_ ?_ hnotes hsnap hothers
  · intro k d hj hl
    rw [hlanded] at hl
    rw [hchild k d hj hl]
    exact h.landed t v k d hv hj hl
  · intro k u hu
    exact .inl (hdisk ▸ hu)

/-- A step that reaches nothing new. -/
theorem keep (h : Notes s ws) (hv : ws t = some v) (hjob : v'.job = v.job)
    (hlanded : Loc.landed v'.loc = Loc.landed v.loc)
    (hpushed : Loc.pushed v'.loc = Loc.pushed v.loc)
    (hnoted : Loc.noted v'.loc = Loc.noted v.loc) (hsnap : Loc.snap v'.loc = Loc.snap v.loc)
    (hchild : ∀ k d, v.job = .insertTask k d → Loc.landed v.loc = true →
      Loc.child v'.loc = Loc.child v.loc)
    (hdisk : s'.disk.lastInsert = s.disk.lastInsert) (hindex : s'.index.noted = s.index.noted)
    (hsnaps : s'.index.snapshots = s.index.snapshots) :
    Notes s' (Function.update ws t (some v')) := by
  refine h.reindex hv hjob hlanded hchild hdisk (fun hn => hnoted.trans hn) ?_ ?_ ?_ ?_
  · rw [hpushed, hlanded, hnoted]
    exact h.order t v hv
  · intro p hp
    exact .inl (hindex ▸ hp)
  · rw [hsnaps, hsnap]
    exact h.snap_of hv
  · intro u _
    rw [hsnaps]

/-- What the index does to the history. -/
theorem index (h : Notes s ws) (hv : ws t = some v) {o : IndexOp} {r : o.Resp}
    (hpre : indexPre cfg v.loc o) (hex : s.index.exec cfg.index t o = (r, s'.index))
    (hdisk : s'.disk = s.disk) :
    Notes s' (Function.update ws t (some ⟨v.job, v.parent, indexNext v.loc o r⟩)) := by
  have hsnap := h.snap_of hv
  cases o with
  | swapBloom new =>
      have hindex : s'.index = (s.index.swapBloom t new).2 := (congrArg Prod.snd hex).symm
      refine h.reindex hv rfl rfl (fun _ _ _ _ => rfl) (by rw [hdisk]) id (h.order t v hv) ?_ ?_ ?_
      · intro p hp
        rw [hindex] at hp
        exact .inl hp
      · rw [hindex]
        exact FinMap.get?_erase_self _ _
      · intro u hut
        rw [hindex]
        exact (FinMap.get?_erase _ _ _).trans (if_neg hut)
  | pushPending digest =>
      have hindex : s'.index = { s.index with pending := s.index.pending ++ [digest] } :=
        (congrArg Prod.snd hex).symm
      obtain ⟨key, data, -, -, hl, -⟩ := hpre
      refine h.reindex hv rfl rfl (fun _ _ _ _ => rfl) (by rw [hdisk]) id
        ⟨fun _ => hl, fun _ => rfl⟩ ?_ ?_ ?_
      · intro p hp
        rw [hindex] at hp
        exact .inl hp
      · rw [hindex]
        exact hsnap
      · intro u _
        rw [hindex]
  | bloomInsert digest =>
      have hindex : s'.index = (s.index.bloomInsert t digest).2 := (congrArg Prod.snd hex).symm
      obtain ⟨key, data, -, -, hp⟩ := hpre
      refine h.reindex hv rfl rfl (fun _ _ _ _ => rfl) (by rw [hdisk]) (fun _ => rfl)
        ⟨(h.order t v hv).1, fun _ => hp⟩ ?_ ?_ ?_
      · intro p hp
        rw [hindex] at hp
        rcases List.mem_cons.mp hp with rfl | hp
        · exact .inr ⟨rfl, rfl⟩
        · exact .inl hp
      · rw [hindex]
        exact hsnap
      · intro u _
        rw [hindex]
        rfl
  | _ =>
      obtain ⟨remote, version, hframe⟩ := PeerIndex.exec_frame hex rfl
      exact h.keep hv rfl rfl rfl rfl rfl (fun _ _ _ _ => rfl) (by rw [hdisk])
        (by rw [hframe]) (by rw [hframe])

theorem empty (hlast : s.disk.lastInsert = ∅) (hnoted : s.index.noted = [])
    (hsnap : s.index.snapshots = ∅) :
    Notes s (fun _ => none : Views (discipline env)) := by
  refine ⟨?_, ?_, ?_, ?_, ?_⟩
  · intro t v hv
    cases hv
  · intro p w k d hw
    cases hw
  · intro k t ht
    simp [hlast] at ht
  · intro p hp
    simp [hnoted] at hp
  · intro t
    simp [hsnap, locsOf]

end Notes

/-- What an operation of the disk does to the history. -/
theorem lastInsert_exec {d d' : Disk} {t : Nat} {c : DiskChoice} {o : DiskOp} {r : o.Resp}
    (hex : d.exec cfg.disk t c o = (r, d')) :
    d'.lastInsert = d.lastInsert ∨
      ∃ k n, o = .insertSection k n ∧ d'.lastInsert = d.lastInsert.insert k t := by
  cases o with
  | insertSection k n =>
      cases hex
      exact .inr ⟨k, n, rfl, rfl⟩
  | removeSection k =>
      cases hex
      exact .inl (d.removeSection_frame k).2
  | touchLru k =>
      have hd : (d.touchLru k).2 = d' := congrArg Prod.snd hex
      rw [← hd]
      exact .inl (d.touchLru_frame k).2
  | create name =>
      refine .inl ?_
      change d.create name c = (r, d') at hex
      unfold Disk.create at hex
      split at hex <;> cases hex <;> rfl
  | writeAll fd data =>
      refine .inl ?_
      change d.writeAll fd data c = (r, d') at hex
      unfold Disk.writeAll at hex
      split at hex <;> cases hex <;> rfl
  | rename tmp k =>
      refine .inl ?_
      change d.rename cfg.disk tmp k c = (r, d') at hex
      unfold Disk.rename at hex
      split at hex
      · cases hex
        rfl
      · split at hex <;> cases hex <;> rfl
  | _ =>
      cases hex
      exact .inl rfl

/-- What the disk does to the history: an insert passes the lock. -/
theorem Notes.disk {s s' : State} {ws : Views (discipline env)} {t : Nat}
    {v : View (discipline env)} (h : Notes s ws) (hv : ws t = some v)
    (hjob : Loc.job v.loc = v.job) {c : DiskChoice} {o : DiskOp} {r : o.Resp}
    (hpre : diskPre env v.loc o) (hex : s.disk.exec cfg.disk t c o = (r, s'.disk))
    (hindex : s'.index = s.index) :
    Notes s' (Function.update ws t (some ⟨v.job, v.parent, diskNext v.loc o r⟩)) := by
  have hsnap := h.snap_of hv
  obtain ⟨file, hnext⟩ := diskNext_eq v.loc o r
  have hinsert (hlands : lands o = true) :
      ∃ k n d, o = .insertSection k n ∧ v.job = .insert k d := by
    cases o with
    | insertSection k n =>
        obtain ⟨d, hj, -⟩ := hpre
        exact ⟨k, n, d, rfl, hjob.symm.trans hj⟩
    | _ => cases hlands
  rw [hnext]
  refine h.move hv rfl (fun hl => by simp [hl]) id ?_ ?_ ?_ ?_ ?_ ?_
  · refine ⟨fun hp => ?_, (h.order t v hv).2⟩
    simp [(h.order t v hv).1 hp]
  · intro k d hj hl
    simp only [Bool.or_eq_true] at hl
    rcases hl with hl | hl
    · exact h.landed t v k d hv hj hl
    · obtain ⟨k', n, d', -, hj'⟩ := hinsert hl
      rw [hj] at hj'
      cases hj'
  · intro k u hu
    rcases lastInsert_exec hex with hsame | ⟨k', n, rfl, hput⟩
    · exact .inl (hsame ▸ hu)
    · rw [hput, FinMap.get?_insert] at hu
      split at hu
      · rename_i hk
        cases hu
        obtain ⟨k'', n', d, heq, hj⟩ := hinsert rfl
        cases heq
        exact .inr ⟨rfl, d, hk ▸ hj, by simp [lands]⟩
      · exact .inl hu
  · intro p hp
    exact .inl (hindex ▸ hp)
  · rw [hindex]
    exact hsnap
  · intro u _
    rw [hindex]

/-- The history stays true under every step. -/
theorem notes_keeps {G : State → Event (machine cfg) → Prop} :
    Keeps (discipline env) G (fun s ws => Core env s ws ∧ Lineage ws) Notes where
  start _ h ht _ _ _ := h.birth ht _ none
  op {s ws t v o c r s'} hI h hv hpre _ hex _ := by
    change exec cfg t o c s = some (r, s') at hex
    cases o with
    | disk o =>
        obtain ⟨hd, hindex, -⟩ := exec_disk hex
        exact h.disk hv (hI.1.job t v hv).1 hpre hd hindex
    | index o =>
        obtain ⟨hi, hdisk, -⟩ := exec_index hex
        exact h.index hv hpre hi hdisk
    | fetch o =>
        obtain ⟨-, hdisk, hindex⟩ := exec_fetch hex
        obtain ⟨lead, asked, stored, rx, heard, hnext⟩ := fetchNext_eq v.loc o r
        change Notes s' (Function.update ws t (some ⟨v.job, v.parent, fetchNext v.loc o r⟩))
        rw [hnext]
        exact h.keep hv rfl rfl rfl rfl rfl (fun _ _ _ _ => rfl) (by rw [hdisk]) (by rw [hindex])
          (by rw [hindex])
    | snapshotKeys =>
        obtain ⟨-, hdisk, -, hindex⟩ := exec_snapshotKeys hex
        refine h.reindex hv rfl rfl (fun _ _ _ _ => rfl) (by rw [hdisk]) id (h.order t v hv)
          ?_ ?_ ?_
        · intro p hp
          rw [hindex] at hp
          exact .inl hp
        · rw [hindex]
          exact FinMap.get?_insert_self _ _ _
        · intro u hut
          rw [hindex]
          exact (FinMap.get?_insert _ _ _ _).trans (if_neg hut)
  spawn {s ws t v u j} hI h hv hu _ hpre _ := by
    have hut : u ≠ t := by
      rintro rfl
      rw [hv] at hu
      cases hu
    have hmove : Notes s (Function.update ws t (some (v.spawned ⟨u, j⟩))) := by
      refine h.keep hv rfl rfl rfl rfl rfl ?_ rfl rfl rfl
      intro k d hj hl
      obtain ⟨rfl, -⟩ := hpre.of_insertTask ((hI.1.job t v hv).1.trans hj)
      rw [hpre.2.2] at hl
      cases hl
    exact hmove.birth (by simpa [hut] using hu) j (some t)
  join {s ws t v hd w x} hI h hv hw hjob hpost := by
    have hsnap := h.snap_of hv
    refine h.move hv rfl (fun hl => ?_) id ?_ ?_ (fun _ _ hu => .inl hu) (fun _ hp => .inl hp)
      hsnap (fun _ _ => rfl)
    · change (Loc.landed v.loc || _) = true
      simp [hl]
    · refine ⟨fun hp => ?_, (h.order t v hv).2⟩
      change (Loc.landed v.loc || _) = true
      simp [(h.order t v hv).1 hp]
    · intro k d hj hl
      change (Loc.landed v.loc || (decide (Loc.child v.loc = some hd.tid) &&
        decide ((some x : Option Val) = some (.done (.ok ()))))) = true at hl
      simp only [Bool.or_eq_true, Bool.and_eq_true, decide_eq_true_eq] at hl
      rcases hl with hl | ⟨hc, hx⟩
      · exact h.landed t v k d hv hj hl
      · -- the awaited insert has passed the lock
        obtain ⟨w', hw', hwjob, -⟩ := hI.2.child t v k d hd.tid hv hj hc
        rw [hw] at hw'
        cases hw'
        rw [← hjob, hwjob] at hpost
        obtain ⟨-, -, -, hval⟩ := hpost
        rcases hval with ⟨-, hl⟩ | ⟨e, he, -⟩
        · exact ⟨hd.tid, w, hc, hw, hl⟩
        · rw [he] at hx
          cases hx
  lost {s ws t v hd w l} _ h hv _ _ _ := by
    have hloc : Loc.landed (v.joined hd none).loc = Loc.landed v.loc := by
      change (Loc.landed v.loc || (_ && decide ((none : Option Val) = some (.done (.ok ()))))) = _
      simp
    exact h.keep hv rfl hloc rfl rfl rfl (fun _ _ _ _ => rfl) rfl rfl rfl
  cancel _ h hv _ _ := h.keep hv rfl rfl rfl rfl rfl (fun _ _ _ _ => rfl) rfl rfl rfl

/-- What holds in every run, whatever the jobs. -/
structure Base (env : Env cfg) (s : State) (ws : Views (discipline env)) : Prop where
  core : Core env s ws
  lineage : Lineage ws
  notes : Notes s ws
  joined : Joined ws

theorem base_sound {G : State → Event (machine cfg) → Prop} (hG : Respects env G) :
    Sound (discipline env) G (Base env) := by
  have hsound := (((core_sound hG).and lineage_keeps).and notes_keeps).and
    (joined_keeps.weaken fun _ _ h => h.1.1)
  refine hsound.of_iff fun s ws => ⟨?_, ?_⟩
  · intro h
    exact ⟨⟨⟨h.core, h.lineage⟩, h.notes⟩, h.joined⟩
  · rintro ⟨⟨⟨hcore, hlineage⟩, hnotes⟩, hjoined⟩
    exact ⟨hcore, hlineage, hnotes, hjoined⟩

/-- The history of a node on which nothing has run. -/
structure State.Unused (s : State) : Prop where
  lastInsert : s.disk.lastInsert = ∅
  noted : s.index.noted = []
  snapshots : s.index.snapshots = ∅

theorem State.Unused.new (cfg : NodeConfig) : (State.new cfg).Unused := ⟨rfl, rfl, rfl⟩

theorem Settled.base {s : State} (h : Settled env s) (hu : s.Unused) :
    Base env s fun _ => none where
  core := h.core
  lineage := .empty
  notes := .empty hu.lastInsert hu.noted hu.snapshots
  joined t v hv := by cases hv

end BlobCache.Node
