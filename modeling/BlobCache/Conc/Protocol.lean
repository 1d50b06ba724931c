import BlobCache.Conc.Program

/-!
Reasoning about all interleavings at once. A protocol gives every thread a
local state that follows its own operations, says what a thread has to
establish before an operation and what it may rely on afterwards. A program
that keeps to the protocol is checked once, without other threads; an
invariant over the shared state and all local states is checked once for each
operation, without programs. `Sound.reach` puts the two together for every
reachable configuration.
-/

namespace BlobCache.Conc

variable {E : Effect} {M : Machine E}

structure Protocol (M : Machine E) where
  Local : Type
  init : E.Job → Local
  jobOk : E.Job → Prop
  pre : Local → E.Op → Prop
  allows : Local → (o : E.Op) → E.Resp o → Prop
  next : Local → (o : E.Op) → E.Resp o → Local
  spawnPre : Local → E.Job → Prop
  spawned : Local → Handle E → Local
  joined : Local → Handle E → Option E.Val → Local
  post : E.Job → E.Val → Local → Prop
  dead : Local → Local

/-- The program keeps to the protocol from local state `l`, and returns only
in a local state and with a value that satisfy `Q`. -/
def Program.Sat (P : Protocol M) {α : Type} :
    Program E α → P.Local → (α → P.Local → Prop) → Prop
  | .ret a, l, Q => Q a l
  | .op o k, l, Q => P.pre l o ∧ ∀ r, P.allows l o r → (k r).Sat P (P.next l o r) Q
  | .spawn j k, l, Q =>
      P.jobOk j ∧ P.spawnPre l j ∧ ∀ t, (k ⟨t, j⟩).Sat P (P.spawned l ⟨t, j⟩) Q
  | .join h k, l, Q =>
      ∀ r, (∀ v, r = some v → ∃ lc, P.post h.job v lc) →
        (k r).Sat P (P.joined l h r) Q

namespace Program

variable {P : Protocol M} {α β : Type} {l : P.Local}

theorem Sat.mono {p : Program E α} {Q R : α → P.Local → Prop}
    (h : p.Sat P l Q) (hQR : ∀ a l', Q a l' → R a l') : p.Sat P l R := by
  induction p generalizing l with
  | ret a => exact hQR a l h
  | op o k ih => exact ⟨h.1, fun r hr => ih r (h.2 r hr)⟩
  | spawn j k ih => exact ⟨h.1, h.2.1, fun t => ih ⟨t, j⟩ (h.2.2 t)⟩
  | join hd k ih => exact fun r hr => ih r (h r hr)

/-- The rule of sequential composition. -/
theorem Sat.bind {p : Program E α} {f : α → Program E β} {Q : α → P.Local → Prop}
    {R : β → P.Local → Prop} (h : p.Sat P l Q)
    (hf : ∀ a l', Q a l' → (f a).Sat P l' R) : (p >>= f).Sat P l R := by
  induction p generalizing l with
  | ret a => exact hf a l h
  | op o k ih => exact ⟨h.1, fun r hr => ih r (h.2 r hr)⟩
  | spawn j k ih => exact ⟨h.1, h.2.1, fun t => ih ⟨t, j⟩ (h.2.2 t)⟩
  | join hd k ih => exact fun r hr => ih r (h r hr)

theorem Sat.call_bind {j : E.Job} {f : Option E.Val → Program E β} {R : β → P.Local → Prop}
    (hjob : P.jobOk j) (hpre : P.spawnPre l j)
    (hf : ∀ t r, (∀ v, r = some v → ∃ lc, P.post j v lc) →
      (f r).Sat P (P.joined (P.spawned l ⟨t, j⟩) ⟨t, j⟩ r) R) :
    (call j >>= f).Sat P l R :=
  ⟨hjob, hpre, fun t r hr => hf t r hr⟩

end Program

/-- What an invariant can see of a thread. -/
structure View (P : Protocol M) where
  job : E.Job
  parent : Option Nat
  loc : P.Local

/-- The views of all threads, by thread number. -/
abbrev Views (P : Protocol M) := Nat → Option (View P)

/-- An entry after an update is the new one or an old one. -/
theorem update_eq_some {α : Type} {f : Nat → Option α} {t u : Nat} {a b : α}
    (h : Function.update f t (some a) u = some b) : u = t ∧ b = a ∨ u ≠ t ∧ f u = some b := by
  by_cases hut : u = t
  · subst hut
    rw [Function.update_self] at h
    exact .inl ⟨rfl, (Option.some.inj h).symm⟩
  · rw [Function.update_of_ne hut] at h
    exact .inr ⟨hut, h⟩

/-- An update of a free place keeps the entries. -/
theorem update_of_free {α : Type} {f : Nat → Option α} {t u : Nat} {x : Option α} {b : α}
    (ht : f t = none) (hu : f u = some b) : Function.update f t x u = some b := by
  have hut : u ≠ t := by
    rintro rfl
    rw [ht] at hu
    cases hu
  rw [Function.update_of_ne hut, hu]

theorem Views.forall_update {P : Protocol M} {ws : Views P} {t : Nat} {v : View P}
    {p : Nat → View P → Prop} (h : ∀ u w, ws u = some w → p u w) (hv : p t v) :
    ∀ u w, Function.update ws t (some v) u = some w → p u w := by
  intro u w hu
  rcases update_eq_some hu with ⟨rfl, rfl⟩ | ⟨-, hu⟩
  · exact hv
  · exact h u w hu

def View.next {P : Protocol M} (v : View P) (o : E.Op) (r : E.Resp o) : View P :=
  { v with loc := P.next v.loc o r }

def View.spawned {P : Protocol M} (v : View P) (h : Handle E) : View P :=
  { v with loc := P.spawned v.loc h }

def View.joined {P : Protocol M} (v : View P) (h : Handle E) (r : Option E.Val) : View P :=
  { v with loc := P.joined v.loc h r }

def View.dead {P : Protocol M} (v : View P) : View P := { v with loc := P.dead v.loc }

/-- The invariant `I` is established and kept by every step that a thread
following the protocol can take under the condition `G`. -/
structure Sound (P : Protocol M) (G : M.State → Event M → Prop)
    (I : M.State → Views P → Prop) : Prop where
  body : ∀ j, P.jobOk j → (M.body j).Sat P (P.init j) (P.post j)
  start : ∀ {s ws t j}, I s ws → ws t = none → M.external j = true → G s (.start j) →
    P.jobOk j ∧ I s (Function.update ws t (some ⟨j, none, P.init j⟩))
  op : ∀ {s ws t v o c r s'}, I s ws → ws t = some v → P.pre v.loc o → G s (.op t o c) →
    M.exec t o c s = some (r, s') →
    P.allows v.loc o r ∧ I s' (Function.update ws t (some (v.next o r)))
  spawn : ∀ {s ws t v u j}, I s ws → ws t = some v → ws u = none → P.jobOk j →
    P.spawnPre v.loc j → G s (.spawn t j) →
    I s (Function.update (Function.update ws t (some (v.spawned ⟨u, j⟩))) u
      (some ⟨j, some t, P.init j⟩))
  join : ∀ {s ws t v h w x}, I s ws → ws t = some v → ws h.tid = some w → w.job = h.job →
    P.post h.job x w.loc → I s (Function.update ws t (some (v.joined h (some x))))
  lost : ∀ {s ws t v h w l}, I s ws → ws t = some v → ws h.tid = some w → w.job = h.job →
    w.loc = P.dead l → I s (Function.update ws t (some (v.joined h none)))
  cancel : ∀ {s ws t v p}, I s ws → ws t = some v → M.cancellable v.job p = true →
    G s (.cancel t) → I (M.onCancel t s) (Function.update ws t (some v.dead))

/-- A thread and its view: the remaining program keeps to the protocol, a
returned value satisfies the job's postcondition. -/
def StatusOk (P : Protocol M) (st : Status E) (v : View P) : Prop :=
  match st with
  | .running p => p.Sat P v.loc (P.post v.job)
  | .done x => P.post v.job x v.loc
  | .cancelled => ∃ l, v.loc = P.dead l

structure ThreadOk (P : Protocol M) (th : Thread E) (v : View P) : Prop where
  job : th.job = v.job
  parent : th.parent = v.parent
  status : StatusOk P th.status v

structure Agree (P : Protocol M) (threads : List (Thread E)) (ws : Views P) : Prop where
  thread : ∀ t th, threads[t]? = some th → ∃ v, ws t = some v ∧ ThreadOk P th v
  fresh : ∀ t, threads[t]? = none → ws t = none

namespace Agree

variable {P : Protocol M} {threads : List (Thread E)} {ws : Views P} {t : Nat} {th : Thread E}

theorem of_view (h : Agree P threads ws) {v : View P} (hv : ws t = some v) :
    ∃ th, threads[t]? = some th ∧ ThreadOk P th v := by
  cases ht : threads[t]? with
  | none =>
      rw [h.fresh t ht] at hv
      cases hv
  | some th =>
      obtain ⟨w, hw, hok⟩ := h.thread t th ht
      rw [hv] at hw
      cases hw
      exact ⟨th, rfl, hok⟩

theorem set (h : Agree P threads ws) (ht : threads[t]? = some th) {st : Status E} {v : View P}
    (hjob : th.job = v.job) (hparent : th.parent = v.parent) (hst : StatusOk P st v) :
    Agree P (threads.set t { th with status := st }) (Function.update ws t (some v)) := by
  have hlt : t < threads.length := by
    by_contra hge
    rw [List.getElem?_eq_none (by omega)] at ht
    cases ht
  constructor
  · intro u thu hu
    by_cases hut : u = t
    · subst hut
      rw [List.getElem?_set_self hlt] at hu
      cases hu
      exact ⟨v, by simp, hjob, hparent, hst⟩
    · rw [List.getElem?_set_ne (Ne.symm hut)] at hu
      obtain ⟨w, hw, hok⟩ := h.thread u thu hu
      exact ⟨w, by simpa [hut] using hw, hok⟩
  · intro u hu
    have hut : u ≠ t := by
      rintro rfl
      rw [List.getElem?_set_self hlt] at hu
      cases hu
    rw [List.getElem?_set_ne (Ne.symm hut)] at hu
    simpa [hut] using h.fresh u hu

theorem append (h : Agree P threads ws) {v : View P} (hok : ThreadOk P th v) :
    Agree P (threads ++ [th]) (Function.update ws threads.length (some v)) := by
  constructor
  · intro u thu hu
    by_cases hlt : u < threads.length
    · rw [List.getElem?_append_left hlt] at hu
      obtain ⟨w, hw, hthu⟩ := h.thread u thu hu
      exact ⟨w, by simpa [Nat.ne_of_lt hlt] using hw, hthu⟩
    · have hu' : u = threads.length := by
        obtain ⟨hlen, _⟩ := List.getElem?_eq_some_iff.mp hu
        simp only [List.length_append, List.length_cons, List.length_nil] at hlen
        omega
      subst hu'
      simp at hu
      subst hu
      exact ⟨v, by simp, hok⟩
  · intro u hu
    rw [List.getElem?_eq_none_iff] at hu
    simp only [List.length_append, List.length_cons, List.length_nil] at hu
    have hne : u ≠ threads.length := by omega
    simpa [hne] using h.fresh u (List.getElem?_eq_none (by omega))

end Agree

section

variable {P : Protocol M} {G : M.State → Event M → Prop} {I J : M.State → Views P → Prop}

/-- The property `J` is kept by every step, given the invariant `I`. -/
structure Keeps (P : Protocol M) (G : M.State → Event M → Prop)
    (I J : M.State → Views P → Prop) : Prop where
  start : ∀ {s ws t j}, I s ws → J s ws → ws t = none → M.external j = true →
    G s (.start j) → P.jobOk j → J s (Function.update ws t (some ⟨j, none, P.init j⟩))
  op : ∀ {s ws t v o c r s'}, I s ws → J s ws → ws t = some v → P.pre v.loc o →
    G s (.op t o c) → M.exec t o c s = some (r, s') → P.allows v.loc o r →
    J s' (Function.update ws t (some (v.next o r)))
  spawn : ∀ {s ws t v u j}, I s ws → J s ws → ws t = some v → ws u = none → P.jobOk j →
    P.spawnPre v.loc j → G s (.spawn t j) →
    J s (Function.update (Function.update ws t (some (v.spawned ⟨u, j⟩))) u
      (some ⟨j, some t, P.init j⟩))
  join : ∀ {s ws t v h w x}, I s ws → J s ws → ws t = some v → ws h.tid = some w →
    w.job = h.job → P.post h.job x w.loc →
    J s (Function.update ws t (some (v.joined h (some x))))
  lost : ∀ {s ws t v h w l}, I s ws → J s ws → ws t = some v → ws h.tid = some w →
    w.job = h.job → w.loc = P.dead l → J s (Function.update ws t (some (v.joined h none)))
  cancel : ∀ {s ws t v p}, I s ws → J s ws → ws t = some v → M.cancellable v.job p = true →
    G s (.cancel t) → J (M.onCancel t s) (Function.update ws t (some v.dead))

theorem Keeps.weaken {I' : M.State → Views P → Prop} (h : Keeps P G I J)
    (hI : ∀ s ws, I' s ws → I s ws) : Keeps P G I' J where
  start hI' := h.start (hI _ _ hI')
  op hI' := h.op (hI _ _ hI')
  spawn hI' := h.spawn (hI _ _ hI')
  join hI' := h.join (hI _ _ hI')
  lost hI' := h.lost (hI _ _ hI')
  cancel hI' := h.cancel (hI _ _ hI')

theorem Sound.of_iff (hS : Sound P G I) (h : ∀ s ws, J s ws ↔ I s ws) : Sound P G J := by
  have heq : J = I := by
    funext s ws
    exact propext (h s ws)
  rw [heq]
  exact hS

/-- An invariant is strengthened by a property that it keeps. -/
theorem Sound.and (hS : Sound P G I) (hJ : Keeps P G I J) :
    Sound P G (fun s ws => I s ws ∧ J s ws) where
  body := hS.body
  start hI ht hext hG := by
    obtain ⟨hjob, hI'⟩ := hS.start hI.1 ht hext hG
    exact ⟨hjob, hI', hJ.start hI.1 hI.2 ht hext hG hjob⟩
  op hI hv hpre hG hex := by
    obtain ⟨hallow, hI'⟩ := hS.op hI.1 hv hpre hG hex
    exact ⟨hallow, hI', hJ.op hI.1 hI.2 hv hpre hG hex hallow⟩
  spawn hI hv hu hjob hpre hG :=
    ⟨hS.spawn hI.1 hv hu hjob hpre hG, hJ.spawn hI.1 hI.2 hv hu hjob hpre hG⟩
  join hI hv hw hjob hpost :=
    ⟨hS.join hI.1 hv hw hjob hpost, hJ.join hI.1 hI.2 hv hw hjob hpost⟩
  lost hI hv hw hjob hdead :=
    ⟨hS.lost hI.1 hv hw hjob hdead, hJ.lost hI.1 hI.2 hv hw hjob hdead⟩
  cancel hI hv hcan hG := ⟨hS.cancel hI.1 hv hcan hG, hJ.cancel hI.1 hI.2 hv hcan hG⟩

end

variable [DecidableEq E.Job] {P : Protocol M} {G : M.State → Event M → Prop}
  {I : M.State → Views P → Prop}

omit [DecidableEq E.Job] in
/-- The value of a finished thread satisfies the postcondition of its job. -/
theorem Agree.post_of_result {c : Config M} {ws : Views P} (hA : Agree P c.threads ws) {t : Nat}
    {j : E.Job} {v : E.Val} (hjob : c.job t = some j) (hdone : c.result t = some v) :
    ∃ w, ws t = some w ∧ P.post j v w.loc := by
  obtain ⟨th, ht, rfl, hst⟩ := Config.thread_of_result hjob hdone
  obtain ⟨w, hw, hok⟩ := hA.thread t th ht
  have hstatus := hok.status
  rw [hst] at hstatus
  exact ⟨w, hw, hok.job ▸ hstatus⟩

/-- A thread that takes an operation has met its precondition. -/
theorem Agree.pre_of_step {c c' : Config M} {ws : Views P} {l : Label M} {t : Nat} {o : E.Op}
    {ch : M.Choice} (hA : Agree P c.threads ws) (h : c.step l = some (.op t o ch, c')) :
    ∃ th v, c.threads[t]? = some th ∧ ws t = some v ∧ ThreadOk P th v ∧ P.pre v.loc o := by
  obtain ⟨th, k, r, hth, hst, -, -⟩ := Config.step_op h
  obtain ⟨v, hv, hok⟩ := hA.thread t th hth
  have hsat := hok.status
  rw [hst] at hsat
  exact ⟨th, v, hth, hv, hok, hsat.1⟩

/-- One step keeps the invariant. -/
theorem Sound.step (hS : Sound P G I) {c c' : Config M} {ws : Views P} {l : Label M}
    {e : Event M} (hA : Agree P c.threads ws) (hI : I c.state ws)
    (hstep : c.step l = some (e, c')) (hG : G c.state e) :
    ∃ ws', Agree P c'.threads ws' ∧ I c'.state ws' := by
  cases Config.stepped hstep with
  | @start j hext =>
      obtain ⟨hjob, hI'⟩ := hS.start hI (hA.fresh c.threads.length (by simp)) hext hG
      have hthread : ThreadOk P ⟨j, none, .running (M.body j)⟩ ⟨j, none, P.init j⟩ :=
        ⟨rfl, rfl, hS.body j hjob⟩
      exact ⟨_, hA.append hthread, hI'⟩
  | @finish t th x hth hp =>
      obtain ⟨v, hv, hok⟩ := hA.thread t th hth
      have hsat := hok.status
      rw [hp] at hsat
      refine ⟨Function.update ws t (some v), hA.set hth hok.job hok.parent hsat, ?_⟩
      rw [Function.update_eq_self_iff.mpr hv.symm]
      exact hI
  | @op t th o k ch r s' hth hp hex =>
      obtain ⟨v, hv, hok⟩ := hA.thread t th hth
      have hsat := hok.status
      rw [hp] at hsat
      obtain ⟨hallow, hI'⟩ := hS.op hI hv hsat.1 hG hex
      exact ⟨_, hA.set hth (v := v.next o r) hok.job hok.parent (hsat.2 r hallow), hI'⟩
  | @spawn t th j k hth hp =>
      obtain ⟨v, hv, hok⟩ := hA.thread t th hth
      have hsat := hok.status
      rw [hp] at hsat
      have hrest : StatusOk P (.running (k ⟨c.threads.length, j⟩))
          (v.spawned ⟨c.threads.length, j⟩) := hsat.2.2 _
      have hset := hA.set hth (v := v.spawned _) hok.job hok.parent hrest
      have hchild : ThreadOk P ⟨j, some t, .running (M.body j)⟩ ⟨j, some t, P.init j⟩ :=
        ⟨rfl, rfl, hS.body j hsat.1⟩
      refine ⟨Function.update (Function.update ws t (some (v.spawned ⟨c.threads.length, j⟩)))
        c.threads.length (some ⟨j, some t, P.init j⟩), ?_, ?_⟩
      · simpa [Config.setStatus] using hset.append hchild
      · exact hS.spawn hI hv (hA.fresh _ (by simp)) hsat.1 hsat.2.1 hG
  | @join t th child h k x hth hp hchild hjob hst =>
      obtain ⟨v, hv, hok⟩ := hA.thread t th hth
      obtain ⟨w, hw, hwok⟩ := hA.thread h.tid child hchild
      have hsat := hok.status
      have hpost := hwok.status
      rw [hp] at hsat
      have hwjob : w.job = h.job := hwok.job.symm.trans hjob
      rw [hst, StatusOk, hwjob] at hpost
      refine ⟨_, hA.set hth (v := v.joined h (some x)) hok.job hok.parent (hsat (some x) ?_),
        hS.join hI hv hw hwjob hpost⟩
      intro y hy
      cases hy
      exact ⟨w.loc, hpost⟩
  | @lost t th child h k hth hp hchild hjob hst =>
      obtain ⟨v, hv, hok⟩ := hA.thread t th hth
      obtain ⟨w, hw, hwok⟩ := hA.thread h.tid child hchild
      have hsat := hok.status
      have hdead := hwok.status
      rw [hp] at hsat
      rw [hst] at hdead
      obtain ⟨l, hl⟩ := hdead
      exact ⟨_, hA.set hth (v := v.joined h none) hok.job hok.parent (hsat none (by simp)),
        hS.lost hI hv hw (hwok.job.symm.trans hjob) hl⟩
  | @cancel t th p hth hp hcan =>
      obtain ⟨v, hv, hok⟩ := hA.thread t th hth
      rw [hok.job] at hcan
      exact ⟨_, hA.set hth (v := v.dead) hok.job hok.parent ⟨v.loc, rfl⟩,
        hS.cancel hI hv hcan hG⟩

/-- A run keeps the invariant. -/
theorem Sound.run (hS : Sound P G I) {c c' : Config M} {ws : Views P}
    (hA : Agree P c.threads ws) (hI : I c.state ws) (h : Config.Reach G c c') :
    ∃ ws', Agree P c'.threads ws' ∧ I c'.state ws' := by
  induction h with
  | refl => exact ⟨ws, hA, hI⟩
  | tail _ hstep hG ih =>
      obtain ⟨ws', hA', hI'⟩ := ih
      exact hS.step hA' hI' hstep hG

/-- Every reachable configuration has views of its threads under which the
invariant holds. -/
theorem Sound.reach (hS : Sound P G I) {s0 : M.State} (h0 : I s0 fun _ => none)
    {c : Config M} (h : Config.Reach G (Config.init s0) c) :
    ∃ ws, Agree P c.threads ws ∧ I c.state ws :=
  hS.run ⟨fun t th ht => by simp [Config.init] at ht, fun _ _ => rfl⟩ h0 h

end BlobCache.Conc
