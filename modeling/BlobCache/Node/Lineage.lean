import BlobCache.Node.Core

/-!
Who started what. The task of `spawn_insert` belongs to the request whose
chunk it stores, and an `insert` inside the node belongs to one such task,
which starts no other. Only futures are dropped, so a job that runs on a
blocking thread is never lost.
-/

namespace BlobCache.Node

open Cache Conc

variable {cfg : NodeConfig} {env : Env cfg}

structure Lineage (ws : Views (discipline env)) : Prop where
  task : ∀ t v k d, ws t = some v → v.job = .insertTask k d →
    ∃ p w, v.parent = some p ∧ ws p = some w ∧ Job.expectedLen w.job = some d.length
  insert : ∀ t v k d p, ws t = some v → v.job = .insert k d → v.parent = some p →
    ∃ w, ws p = some w ∧ w.job = .insertTask k d ∧ Loc.child w.loc = some t
  child : ∀ p w k d t, ws p = some w → w.job = .insertTask k d → Loc.child w.loc = some t →
    ∃ v, ws t = some v ∧ v.job = .insert k d ∧ v.parent = some p

/-- The task of an insert starts one job. -/
theorem Env.spawnPre.of_insertTask {l : Loc} {j : Job} {k : ChunkKey} {d : Bytes}
    (h : env.spawnPre l j) (hjob : l.job = .insertTask k d) :
    j = .insert k d ∧ l.child = none := by
  cases j with
  | insert key data =>
      obtain ⟨hj, hchild, -⟩ := h
      rw [hjob] at hj
      cases hj
      exact ⟨rfl, hchild⟩
  | _ => simp [Env.spawnPre, hjob, Job.expectedLen] at h

namespace Lineage

variable {ws ws' : Views (discipline env)} {t u : Nat} {v v' : View (discipline env)}

/-- Jobs, parents and children stay as they are. -/
theorem congr (h : Lineage ws)
    (hforth : ∀ x w, ws x = some w → ∃ w', ws' x = some w' ∧ w'.job = w.job ∧
      w'.parent = w.parent ∧ Loc.child w'.loc = Loc.child w.loc)
    (hback : ∀ x w', ws' x = some w' → ∃ w, ws x = some w ∧ w'.job = w.job ∧
      w'.parent = w.parent ∧ Loc.child w'.loc = Loc.child w.loc) : Lineage ws' := by
  refine ⟨?_, ?_, ?_⟩
  · intro x w' k d hw' hj
    obtain ⟨w, hw, hjob, hparent, -⟩ := hback x w' hw'
    obtain ⟨p, y, hp, hy, hlen⟩ := h.task x w k d hw (hjob ▸ hj)
    obtain ⟨y', hy', hyjob, -⟩ := hforth p y hy
    exact ⟨p, y', hparent.trans hp, hy', hyjob ▸ hlen⟩
  · intro x w' k d p hw' hj hp
    obtain ⟨w, hw, hjob, hparent, -⟩ := hback x w' hw'
    obtain ⟨y, hy, hyjob, hychild⟩ := h.insert x w k d p hw (hjob ▸ hj) (hparent ▸ hp)
    obtain ⟨y', hy', hyjob', -, hychild'⟩ := hforth p y hy
    exact ⟨y', hy', hyjob'.trans hyjob, hychild'.trans hychild⟩
  · intro p w' k d x hw' hj hc
    obtain ⟨w, hw, hjob, -, hchild⟩ := hback p w' hw'
    obtain ⟨y, hy, hyjob, hyparent⟩ := h.child p w k d x hw (hjob ▸ hj) (hchild ▸ hc)
    obtain ⟨y', hy', hyjob', hyparent', -⟩ := hforth x y hy
    exact ⟨y', hy', hyjob'.trans hyjob, hyparent'.trans hyparent⟩

/-- A thread moves on. -/
theorem move (h : Lineage ws) (hv : ws t = some v) (hjob : v'.job = v.job)
    (hparent : v'.parent = v.parent) (hchild : Loc.child v'.loc = Loc.child v.loc) :
    Lineage (Function.update ws t (some v')) := by
  refine h.congr ?_ ?_
  · intro x w hw
    by_cases hxt : x = t
    · subst hxt
      rw [hv] at hw
      cases hw
      exact ⟨v', by simp, hjob, hparent, hchild⟩
    · exact ⟨w, by simpa [hxt] using hw, rfl, rfl, rfl⟩
  · intro x w' hw'
    rcases update_eq_some hw' with ⟨rfl, rfl⟩ | ⟨-, hw'⟩
    · exact ⟨v, hv, hjob, hparent, hchild⟩
    · exact ⟨w', hw', rfl, rfl, rfl⟩

/-- A job that comes from outside. -/
theorem start (h : Lineage ws) (ht : ws t = none) {j : Job} (hext : j.external = true) :
    Lineage (Function.update ws t (some ⟨j, none, (discipline env).init j⟩)) := by
  refine ⟨?_, ?_, ?_⟩
  · intro x w k d hw hj
    rcases update_eq_some hw with ⟨-, rfl⟩ | ⟨-, hw⟩
    · obtain rfl : j = .insertTask k d := hj
      cases hext
    · obtain ⟨p, y, hp, hy, hlen⟩ := h.task x w k d hw hj
      exact ⟨p, y, hp, update_of_free ht hy, hlen⟩
  · intro x w k d p hw hj hp
    rcases update_eq_some hw with ⟨-, rfl⟩ | ⟨-, hw⟩
    · cases hp
    · obtain ⟨y, hy, hyjob, hychild⟩ := h.insert x w k d p hw hj hp
      exact ⟨y, update_of_free ht hy, hyjob, hychild⟩
  · intro p w k d x hw hj hc
    rcases update_eq_some hw with ⟨-, rfl⟩ | ⟨-, hw⟩
    · cases hc
    · obtain ⟨y, hy, hyjob, hyparent⟩ := h.child p w k d x hw hj hc
      exact ⟨y, update_of_free ht hy, hyjob, hyparent⟩

/-- A thread has started a job. -/
theorem spawn (h : Lineage ws) (hv : ws t = some v) (hloc : Loc.job v.loc = v.job)
    (hu : ws u = none) {j : Job} (hpre : env.spawnPre v.loc j) :
    Lineage (Function.update (Function.update ws t (some (v.spawned ⟨u, j⟩))) u
      (some ⟨j, some t, (discipline env).init j⟩)) := by
  have hut : u ≠ t := by
    rintro rfl
    rw [hv] at hu
    cases hu
  set ws'' := Function.update (Function.update ws t (some (v.spawned ⟨u, j⟩))) u
    (some ⟨j, some t, (discipline env).init j⟩) with hws
  have hnew : ws'' u = some ⟨j, some t, (discipline env).init j⟩ := by simp [hws]
  have hself : ws'' t = some (v.spawned ⟨u, j⟩) := by simp [hws, Ne.symm hut]
  have hother {x : Nat} (hxu : x ≠ u) (hxt : x ≠ t) : ws'' x = ws x := by
    simp [hws, hxu, hxt]
  have hold (x : Nat) (w : View (discipline env)) (hw : ws x = some w) :
      ∃ w', ws'' x = some w' ∧ w'.job = w.job ∧ w'.parent = w.parent ∧ (x ≠ t → w' = w) := by
    have hxu : x ≠ u := by
      rintro rfl
      rw [hu] at hw
      cases hw
    by_cases hxt : x = t
    · subst hxt
      rw [hv] at hw
      cases hw
      exact ⟨v.spawned ⟨u, j⟩, hself, rfl, rfl, fun hne => absurd rfl hne⟩
    · exact ⟨w, (hother hxu hxt).trans hw, rfl, rfl, fun _ => rfl⟩
  have hcases (x : Nat) (w : View (discipline env)) (hw : ws'' x = some w) :
      (x = u ∧ w = ⟨j, some t, (discipline env).init j⟩) ∨
        (x = t ∧ w = v.spawned ⟨u, j⟩) ∨ (x ≠ t ∧ ws x = some w) := by
    rcases update_eq_some hw with hnew | ⟨-, hw⟩
    · exact .inl hnew
    · exact .inr (update_eq_some hw)
  -- a task that already has a child starts nothing
  have hbusy {k : ChunkKey} {d : Bytes} {c : Nat} (hjob : v.job = .insertTask k d)
      (hc : Loc.child v.loc = some c) : False := by
    have hnone := (hpre.of_insertTask (hloc.trans hjob)).2
    rw [hnone] at hc
    cases hc
  refine ⟨?_, ?_, ?_⟩
  · intro x w k d hw hj
    have hlift (hex : ∃ p y, w.parent = some p ∧ ws p = some y ∧
        Job.expectedLen y.job = some d.length) :
        ∃ p y, w.parent = some p ∧ ws'' p = some y ∧ Job.expectedLen y.job = some d.length := by
      obtain ⟨p, y, hp, hy, hlen⟩ := hex
      obtain ⟨y', hy', hyjob, -⟩ := hold p y hy
      exact ⟨p, y', hp, hy', hyjob ▸ hlen⟩
    rcases hcases x w hw with ⟨-, rfl⟩ | ⟨-, rfl⟩ | ⟨-, hw⟩
    · obtain rfl : j = .insertTask k d := hj
      exact hlift ⟨t, v, rfl, hv, hloc ▸ hpre.1⟩
    · exact hlift (h.task t v k d hv hj)
    · exact hlift (h.task x w k d hw hj)
  · intro x w k d p hw hj hp
    have hlift (hex : ∃ y, ws p = some y ∧ y.job = .insertTask k d ∧ Loc.child y.loc = some x) :
        ∃ y, ws'' p = some y ∧ y.job = .insertTask k d ∧ Loc.child y.loc = some x := by
      obtain ⟨y, hy, hyjob, hychild⟩ := hex
      obtain ⟨y', hy', -, -, hsame⟩ := hold p y hy
      have hpt : p ≠ t := by
        rintro rfl
        rw [hv] at hy
        cases hy
        exact hbusy hyjob hychild
      rw [hsame hpt] at hy'
      exact ⟨y, hy', hyjob, hychild⟩
    rcases hcases x w hw with ⟨rfl, rfl⟩ | ⟨rfl, rfl⟩ | ⟨-, hw⟩
    · obtain rfl : j = .insert k d := hj
      cases hp
      exact ⟨v.spawned ⟨x, .insert k d⟩, hself, hloc.symm.trans hpre.1, rfl⟩
    · exact hlift (h.insert x v k d p hv hj hp)
    · exact hlift (h.insert x w k d p hw hj hp)
  · intro p w k d x hw hj hc
    rcases hcases p w hw with ⟨-, rfl⟩ | ⟨rfl, rfl⟩ | ⟨-, hw⟩
    · cases hc
    · cases hc
      obtain ⟨rfl, -⟩ := hpre.of_insertTask (hloc.trans hj)
      exact ⟨_, hnew, rfl, rfl⟩
    · obtain ⟨y, hy, hyjob, hyparent⟩ := h.child p w k d x hw hj hc
      obtain ⟨y', hy', hyjob', hyparent', -⟩ := hold x y hy
      exact ⟨y', hy', hyjob'.trans hyjob, hyparent'.trans hyparent⟩

theorem empty : Lineage (fun _ => none : Views (discipline env)) := by
  refine ⟨?_, ?_, ?_⟩
  · intro t v k d hv
    cases hv
  · intro t v k d p hv
    cases hv
  · intro p w k d t hw
    cases hw

end Lineage

/-- The relation is kept by every step. -/
theorem lineage_keeps {G : State → Event (machine cfg) → Prop} :
    Keeps (discipline env) G (Core env) fun _ ws => Lineage ws where
  start _ h ht hext _ _ := h.start ht hext
  op _ h hv _ _ _ _ := h.move hv rfl rfl (discipline_next_frame env _ _ _).2.1
  spawn hC h hv hu _ hpre _ := h.spawn hv (hC.job _ _ hv).1 hu hpre
  join _ h hv _ _ _ := h.move hv rfl rfl rfl
  lost _ h hv _ _ _ := h.move hv rfl rfl rfl
  cancel _ h hv _ _ := h.move hv rfl rfl rfl

/-- A thread and the jobs it waits for: nobody has lost a blocking job,
because only futures die, and an insert starts none. -/
structure JoinOk (v : View (discipline env)) : Prop where
  lost : Loc.lostJoin v.loc = false
  dead : Loc.dead v.loc = true → v.job.async = true
  insert : ∀ k d, v.job = .insert k d → Loc.child v.loc = none

def Joined (ws : Views (discipline env)) : Prop := ∀ t v, ws t = some v → JoinOk v

/-- An insert starts no job. -/
theorem Env.spawnPre.not_insert {l : Loc} {j : Job} {k : ChunkKey} {d : Bytes}
    (h : env.spawnPre l j) : l.job ≠ .insert k d := by
  intro hjob
  cases j <;> simp [Env.spawnPre, hjob, Job.expectedLen] at h

theorem joined_keeps {G : State → Event (machine cfg) → Prop} :
    Keeps (discipline env) G (Core env) fun _ ws => Joined ws where
  start _ h _ _ _ _ := Views.forall_update h ⟨rfl, nofun, fun _ _ _ => rfl⟩
  op {s ws t v o c r s'} _ h hv _ _ _ _ := by
    obtain ⟨-, hchild, hlost, hdead⟩ := discipline_next_frame env v.loc o r
    have hself := h t v hv
    refine Views.forall_update h ⟨hlost.trans hself.lost, ?_, ?_⟩
    · intro hd
      exact hself.dead (hdead.symm.trans hd)
    · intro k d hjob
      exact hchild.trans (hself.insert k d hjob)
  spawn {s ws t v u j} hC h hv _ _ hpre _ := by
    have hself := h t v hv
    have hmove : JoinOk (v.spawned ⟨u, j⟩) := by
      refine ⟨hself.lost, hself.dead, ?_⟩
      intro k d hjob
      exact absurd ((hC.job t v hv).1.trans hjob) hpre.not_insert
    exact Views.forall_update (Views.forall_update h hmove) ⟨rfl, nofun, fun _ _ _ => rfl⟩
  join {s ws t v hd w x} _ h hv _ _ _ := by
    have hself := h t v hv
    refine Views.forall_update h ⟨?_, hself.dead, hself.insert⟩
    change (Loc.lostJoin v.loc || (false && _)) = false
    simp [hself.lost]
  lost {s ws t v hd w l} _ h hv hw hjob hdead := by
    have hself := h t v hv
    have hasync : Job.async hd.job = true := by
      rw [← hjob]
      refine (h hd.tid w hw).dead ?_
      rw [hdead]
      rfl
    refine Views.forall_update h ⟨?_, hself.dead, hself.insert⟩
    change (Loc.lostJoin v.loc || _) = false
    simp [hself.lost, hasync]
  cancel {s ws t v p} _ h hv hcan _ := by
    have hself := h t v hv
    have hasync : v.job.async = true := (Bool.and_eq_true_iff.mp hcan).1
    exact Views.forall_update h ⟨hself.lost, fun _ => hasync, hself.insert⟩

theorem lineage_reach {G : State → Event (machine cfg) → Prop} (hG : Respects env G) {s0 : State}
    (h0 : Settled env s0) {c : Config (machine cfg)} (h : Config.Reach G (.init s0) c) :
    ∃ ws, Agree (discipline env) c.threads ws ∧ Core env c.state ws ∧ Lineage ws :=
  ((core_sound hG).and lineage_keeps).reach ⟨h0.core, .empty⟩ h

end BlobCache.Node
