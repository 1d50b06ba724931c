import Mathlib.Algebra.Order.Ring.Nat
import Mathlib.Logic.Function.Basic

/-!
Concurrent programs as data. A program is a tree of atomic operations on a
shared state, each continued by a function of its response; it may also start
another job and wait for its value. Jobs are names for programs, so that a
thread can be recorded by the job it runs.

Programs are finite trees: every loop of a modelled program runs over a list
that is known when the loop is entered. Waiting is an operation that is not
enabled yet, not a loop.
-/

namespace BlobCache.Conc

/-- The atomic operations of a family of programs, the type of the response
of each, the jobs that can be started and the values they return. -/
structure Effect where
  Op : Type
  Resp : Op → Type
  Job : Type
  Val : Type

/-- What starting a job returns: the thread and the job it runs. -/
structure Handle (E : Effect) where
  tid : Nat
  job : E.Job

inductive Program (E : Effect) (α : Type) where
  | ret : α → Program E α
  | op : (o : E.Op) → (E.Resp o → Program E α) → Program E α
  | spawn : E.Job → (Handle E → Program E α) → Program E α
  | join : Handle E → (Option E.Val → Program E α) → Program E α

namespace Program

variable {E : Effect} {α β : Type}

def bind : Program E α → (α → Program E β) → Program E β
  | .ret a, f => f a
  | .op o k, f => .op o fun r => (k r).bind f
  | .spawn j k, f => .spawn j fun h => (k h).bind f
  | .join h k, f => .join h fun v => (k v).bind f

instance : Monad (Program E) where
  pure := .ret
  bind := Program.bind

/-- One operation, returning its response. -/
def perform (o : E.Op) : Program E (E.Resp o) := .op o .ret

/-- Start a job and wait for it. The value is missing when the job was
cancelled or panicked. -/
def call (j : E.Job) : Program E (Option E.Val) := .spawn j fun h => .join h .ret

end Program

/-- The operational side of a family of programs. `exec t o c s` runs `o` for
thread `t` in state `s`, where `c` is what the environment contributes; it is
`none` when the operation is not enabled. -/
structure Machine (E : Effect) where
  State : Type
  Choice : Type
  exec : Nat → (o : E.Op) → Choice → State → Option (E.Resp o × State)
  body : E.Job → Program E E.Val
  external : E.Job → Bool
  cancellable : E.Job → Program E E.Val → Bool
  onCancel : Nat → State → State

inductive Status (E : Effect) where
  | running : Program E E.Val → Status E
  | done : E.Val → Status E
  | cancelled : Status E

structure Thread (E : Effect) where
  job : E.Job
  parent : Option Nat
  status : Status E

def Thread.finished {E : Effect} (th : Thread E) : Bool :=
  match th.status with
  | .running _ => false
  | _ => true

structure Config {E : Effect} (M : Machine E) where
  state : M.State
  threads : List (Thread E)

/-- Scheduler decisions: start a job from outside, let a thread take one step,
or cancel a thread. -/
inductive Label {E : Effect} (M : Machine E) where
  | start : E.Job → Label M
  | run : Nat → M.Choice → Label M
  | cancel : Nat → Label M

/-- What a step did, as seen by a condition on runs. -/
inductive Event {E : Effect} (M : Machine E) where
  | start : E.Job → Event M
  | op : Nat → E.Op → M.Choice → Event M
  | spawn : Nat → E.Job → Event M
  | join : Nat → Handle E → Event M
  | finish : Nat → Event M
  | cancel : Nat → Event M

/-- The thread whose step an event is. -/
def Event.tid {E : Effect} {M : Machine E} : Event M → Option Nat
  | .start _ => none
  | .op t _ _ | .spawn t _ | .join t _ | .finish t | .cancel t => some t

namespace Config

variable {E : Effect} {M : Machine E}

def init (s : M.State) : Config M := ⟨s, []⟩

/-- No thread is between two of its steps. -/
def quiescent (c : Config M) : Bool := c.threads.all Thread.finished

theorem lt_of_thread {c : Config M} {t : Nat} {th : Thread E} (hth : c.threads[t]? = some th) :
    t < c.threads.length :=
  (List.getElem?_eq_some_iff.mp hth).1

theorem finished_of_quiescent {c : Config M} {t : Nat} {th : Thread E} (h : c.quiescent = true)
    (ht : c.threads[t]? = some th) : th.finished = true :=
  List.all_eq_true.mp h th (List.mem_of_getElem? ht)

/-- The job of a thread. -/
def job (c : Config M) (t : Nat) : Option E.Job := c.threads[t]?.map Thread.job

/-- The value that a thread returned, once it has. -/
def result (c : Config M) (t : Nat) : Option E.Val :=
  match c.threads[t]? with
  | some ⟨_, _, .done v⟩ => some v
  | _ => none

theorem done_of_result {c : Config M} {t : Nat} {v : E.Val} (h : c.result t = some v) :
    ∃ th, c.threads[t]? = some th ∧ th.status = .done v := by
  unfold result at h
  split at h
  · rename_i heq
    cases h
    exact ⟨_, heq, rfl⟩
  · cases h

theorem thread_of_result {c : Config M} {t : Nat} {j : E.Job} {v : E.Val}
    (hjob : c.job t = some j) (hdone : c.result t = some v) :
    ∃ th, c.threads[t]? = some th ∧ th.job = j ∧ th.status = .done v := by
  obtain ⟨th, hth, hst⟩ := done_of_result hdone
  rw [job, hth] at hjob
  exact ⟨th, hth, Option.some.inj hjob, hst⟩

def setStatus (c : Config M) (t : Nat) (th : Thread E) (st : Status E) : Config M :=
  { c with threads := c.threads.set t { th with status := st } }

theorem setStatus_job {c : Config M} {t : Nat} {th : Thread E} (hth : c.threads[t]? = some th)
    (st : Status E) (u : Nat) : (c.setStatus t th st).job u = c.job u := by
  by_cases hut : u = t
  · subst hut
    simp only [job, setStatus, List.getElem?_set_self (lt_of_thread hth), hth, Option.map_some]
  · simp only [job, setStatus, List.getElem?_set_ne (Ne.symm hut)]

/-- A thread after a step of `t`: another one as it was, or this one with its new status. -/
theorem thread_setStatus {c : Config M} {t u : Nat} {th thu : Thread E} {st : Status E}
    (hth : c.threads[t]? = some th) (hu : (c.setStatus t th st).threads[u]? = some thu) :
    u ≠ t ∧ c.threads[u]? = some thu ∨ u = t ∧ thu = { th with status := st } := by
  by_cases hut : u = t
  · subst hut
    rw [setStatus, List.getElem?_set_self (lt_of_thread hth)] at hu
    exact .inr ⟨rfl, (Option.some.inj hu).symm⟩
  · rw [setStatus, List.getElem?_set_ne (Ne.symm hut)] at hu
    exact .inl ⟨hut, hu⟩

/-- A thread after a new one was added. -/
theorem thread_append {ths : List (Thread E)} {u : Nat} {th thu : Thread E}
    (hu : (ths ++ [th])[u]? = some thu) : ths[u]? = some thu ∨ u = ths.length ∧ thu = th := by
  rw [List.getElem?_append] at hu
  split at hu
  · exact .inl hu
  · have hlt := (List.getElem?_eq_some_iff.mp hu).1
    rw [List.length_singleton] at hlt
    exact .inr ⟨by omega, List.mem_singleton.mp (List.mem_of_getElem? hu)⟩

variable [DecidableEq E.Job]

/-- One step of the running thread `t`, whose remaining program is `p`. -/
def advance (c : Config M) (t : Nat) (th : Thread E) (ch : M.Choice) :
    Program E E.Val → Option (Event M × Config M)
  | .ret v => some (.finish t, c.setStatus t th (.done v))
  | .op o k =>
      match M.exec t o ch c.state with
      | none => none
      | some (r, s) =>
          some (.op t o ch, { c.setStatus t th (.running (k r)) with state := s })
  | .spawn j k =>
      let child : Thread E := ⟨j, some t, .running (M.body j)⟩
      let next := c.setStatus t th (.running (k ⟨c.threads.length, j⟩))
      some (.spawn t j, { next with threads := next.threads ++ [child] })
  | .join h k =>
      match c.threads[h.tid]? with
      | none => none
      | some child =>
          if child.job = h.job then
            match child.status with
            | .running _ => none
            | .done v => some (.join t h, c.setStatus t th (.running (k (some v))))
            | .cancelled => some (.join t h, c.setStatus t th (.running (k none)))
          else none

def step (c : Config M) : Label M → Option (Event M × Config M)
  | .start j =>
      if M.external j then
        some (.start j,
          { c with threads := c.threads ++ [⟨j, none, .running (M.body j)⟩] })
      else none
  | .run t ch =>
      match c.threads[t]? with
      | none => none
      | some th =>
          match th.status with
          | .running p => c.advance t th ch p
          | .done _ => none
          | .cancelled => none
  | .cancel t =>
      match c.threads[t]? with
      | none => none
      | some th =>
          match th.status with
          | .running p =>
              if M.cancellable th.job p then
                some (.cancel t,
                  { c.setStatus t th .cancelled with state := M.onCancel t c.state })
              else none
          | .done _ => none
          | .cancelled => none

/-- The ways in which a step can have been taken. -/
inductive Stepped (c : Config M) : Event M → Config M → Prop where
  | start {j : E.Job} : M.external j = true →
      Stepped c (.start j) { c with threads := c.threads ++ [⟨j, none, .running (M.body j)⟩] }
  | finish {t : Nat} {th : Thread E} {v : E.Val} : c.threads[t]? = some th →
      th.status = .running (.ret v) → Stepped c (.finish t) (c.setStatus t th (.done v))
  | op {t : Nat} {th : Thread E} {o : E.Op} {k : E.Resp o → Program E E.Val} {ch : M.Choice}
      {r : E.Resp o} {s : M.State} : c.threads[t]? = some th → th.status = .running (.op o k) →
      M.exec t o ch c.state = some (r, s) →
      Stepped c (.op t o ch) { c.setStatus t th (.running (k r)) with state := s }
  | spawn {t : Nat} {th : Thread E} {j : E.Job} {k : Handle E → Program E E.Val} :
      c.threads[t]? = some th → th.status = .running (.spawn j k) →
      Stepped c (.spawn t j) { c with
        threads := (c.setStatus t th (.running (k ⟨c.threads.length, j⟩))).threads ++
          [⟨j, some t, .running (M.body j)⟩] }
  | join {t : Nat} {th child : Thread E} {h : Handle E} {k : Option E.Val → Program E E.Val}
      {v : E.Val} : c.threads[t]? = some th → th.status = .running (.join h k) →
      c.threads[h.tid]? = some child → child.job = h.job → child.status = .done v →
      Stepped c (.join t h) (c.setStatus t th (.running (k (some v))))
  | lost {t : Nat} {th child : Thread E} {h : Handle E} {k : Option E.Val → Program E E.Val} :
      c.threads[t]? = some th → th.status = .running (.join h k) →
      c.threads[h.tid]? = some child → child.job = h.job → child.status = .cancelled →
      Stepped c (.join t h) (c.setStatus t th (.running (k none)))
  | cancel {t : Nat} {th : Thread E} {p : Program E E.Val} : c.threads[t]? = some th →
      th.status = .running p → M.cancellable th.job p = true →
      Stepped c (.cancel t) { c.setStatus t th .cancelled with state := M.onCancel t c.state }

theorem stepped {c c' : Config M} {l : Label M} {e : Event M} (h : c.step l = some (e, c')) :
    c.Stepped e c' := by
  cases l with
  | start j =>
      simp only [step] at h
      split at h
      · cases h
        exact .start (by assumption)
      · cases h
  | cancel t =>
      simp only [step] at h
      split at h
      · cases h
      · rename_i th hth
        split at h
        · rename_i p hp
          split at h
          · cases h
            exact .cancel hth hp (by assumption)
          · cases h
        · cases h
        · cases h
  | run t ch =>
      simp only [step] at h
      split at h
      · cases h
      · rename_i th hth
        split at h
        · rename_i p hp
          cases p with
          | ret v =>
              cases h
              exact .finish hth hp
          | spawn j k =>
              cases h
              exact .spawn hth hp
          | op o k =>
              simp only [advance] at h
              split at h
              · cases h
              · rename_i r s hex
                cases h
                exact .op hth hp hex
          | join hd k =>
              simp only [advance] at h
              split at h
              · cases h
              · rename_i child hchild
                split at h
                · rename_i hjob
                  split at h
                  · cases h
                  · rename_i v hst
                    cases h
                    exact .join hth hp hchild hjob hst
                  · rename_i hst
                    cases h
                    exact .lost hth hp hchild hjob hst
                · cases h
        · cases h
        · cases h

omit [DecidableEq E.Job] in
/-- Threads that do not take the step stay as they are. -/
theorem Stepped.thread_of_ne {c c' : Config M} {e : Event M} (h : c.Stepped e c') {t : Nat}
    {th : Thread E} (hth : c.threads[t]? = some th) (hne : e.tid ≠ some t) :
    c'.threads[t]? = some th := by
  have hset : ∀ {u : Nat} {thu : Thread E} {st : Status E}, some u ≠ some t →
      (c.setStatus u thu st).threads[t]? = some th := by
    intro u thu st hut
    rw [setStatus, List.getElem?_set_ne fun heq => hut (congrArg some heq)]
    exact hth
  have happend : ∀ {ths ths' : List (Thread E)}, ths[t]? = some th →
      (ths ++ ths')[t]? = some th := by
    intro ths ths' hths
    rw [List.getElem?_append_left (List.getElem?_eq_some_iff.mp hths).1]
    exact hths
  cases h with
  | start hext => exact happend hth
  | finish _ _ | op _ _ _ | join _ _ _ _ _ | lost _ _ _ _ _ | cancel _ _ _ => exact hset hne
  | spawn _ _ => exact happend (hset hne)

omit [DecidableEq E.Job] in
/-- A thread that takes a step is running. -/
theorem Stepped.running {c c' : Config M} {e : Event M} (h : c.Stepped e c') {t : Nat}
    (he : e.tid = some t) : ∃ th p, c.threads[t]? = some th ∧ th.status = .running p := by
  cases h with
  | start _ => cases he
  | finish hth hp | spawn hth hp | op hth hp _ | cancel hth hp _ | join hth hp _ _ _
  | lost hth hp _ _ _ =>
      cases he
      exact ⟨_, _, hth, hp⟩

omit [DecidableEq E.Job] in
/-- Where a thread comes from: it was there, or it is new and was started from
outside or by another thread. -/
theorem Stepped.thread_origin {c c' : Config M} {e : Event M} (h : c.Stepped e c') {u : Nat}
    {thu : Thread E} (hu : c'.threads[u]? = some thu) :
    (∃ th, c.threads[u]? = some th ∧ th.job = thu.job ∧ th.parent = thu.parent) ∨
      (e = .start thu.job ∧ thu.parent = none) ∨
      ∃ t th k, e = .spawn t thu.job ∧ thu.parent = some t ∧ c.threads[t]? = some th ∧
        th.status = .running (.spawn thu.job k) := by
  have hset : ∀ {t : Nat} {th : Thread E} {st : Status E}, c.threads[t]? = some th →
      (c.setStatus t th st).threads[u]? = some thu →
      ∃ th, c.threads[u]? = some th ∧ th.job = thu.job ∧ th.parent = thu.parent := by
    intro t th st hth hthu
    rcases thread_setStatus hth hthu with ⟨-, hold⟩ | ⟨rfl, rfl⟩
    · exact ⟨thu, hold, rfl, rfl⟩
    · exact ⟨th, hth, rfl, rfl⟩
  cases h with
  | start hext =>
      rcases thread_append hu with hold | ⟨-, rfl⟩
      · exact .inl ⟨thu, hold, rfl, rfl⟩
      · exact .inr (.inl ⟨rfl, rfl⟩)
  | spawn hth hp =>
      rcases thread_append hu with hold | ⟨-, rfl⟩
      · exact .inl (hset hth hold)
      · exact .inr (.inr ⟨_, _, _, rfl, rfl, hth, hp⟩)
  | finish hth hp | op hth hp hex | join hth hp hchild hjob hst | lost hth hp hchild hjob hst
  | cancel hth hp hcan => exact .inl (hset hth hu)

omit [DecidableEq E.Job] in
/-- A thread before an operation can only run it or be cancelled. -/
theorem Stepped.of_op {c c' : Config M} {e : Event M} (h : c.Stepped e c') {t : Nat}
    {th : Thread E} {o : E.Op} {k : E.Resp o → Program E E.Val}
    (hth : c.threads[t]? = some th) (hp : th.status = .running (.op o k)) :
    c'.threads[t]? = some th ∨ (∃ ch, e = .op t o ch) ∨
      M.cancellable th.job (.op o k) = true := by
  by_cases hne : e.tid = some t
  · have hsame : ∀ {th' : Thread E} {p : Program E E.Val}, c.threads[t]? = some th' →
        th'.status = .running p → th' = th ∧ p = .op o k := by
      intro th' p hth' hp'
      cases hth.symm.trans hth'
      rw [hp] at hp'
      cases hp'
      exact ⟨rfl, rfl⟩
    cases h with
    | start hext => cases hne
    | finish hth' hp' | spawn hth' hp' | join hth' hp' _ _ _ | lost hth' hp' _ _ _ =>
        cases hne
        cases (hsame hth' hp').2
    | op hth' hp' hex =>
        cases hne
        cases (hsame hth' hp').2
        exact .inr (.inl ⟨_, rfl⟩)
    | cancel hth' hp' hcan =>
        cases hne
        obtain ⟨rfl, rfl⟩ := hsame hth' hp'
        exact .inr (.inr hcan)
  · exact .inl (h.thread_of_ne hth hne)

/-- An operation is a step of the thread that runs it. -/
theorem step_op {c c' : Config M} {l : Label M} {t : Nat} {o : E.Op} {ch : M.Choice}
    (h : c.step l = some (.op t o ch, c')) :
    ∃ th k r, c.threads[t]? = some th ∧ th.status = .running (.op o k) ∧
      M.exec t o ch c.state = some (r, c'.state) ∧
      c'.threads = c.threads.set t { th with status := .running (k r) } := by
  cases stepped h with
  | op hth hp hex => exact ⟨_, _, _, hth, hp, hex, rfl⟩

/-- An enabled operation can be taken. -/
theorem step_of_exec {c : Config M} {t : Nat} {th : Thread E} {o : E.Op}
    {k : E.Resp o → Program E E.Val} {ch : M.Choice} {r : E.Resp o} {s' : M.State}
    (hth : c.threads[t]? = some th) (hp : th.status = .running (.op o k))
    (hex : M.exec t o ch c.state = some (r, s')) :
    c.step (.run t ch) =
      some (.op t o ch, { c.setStatus t th (.running (k r)) with state := s' }) := by
  simp only [step, hth, hp, advance, hex]

/-- Configurations reached from `c0` by steps that meet the condition `G` in
the state before the step. -/
inductive Reach (G : M.State → Event M → Prop) (c0 : Config M) : Config M → Prop where
  | refl : Reach G c0 c0
  | tail {c c' : Config M} {l : Label M} {e : Event M} :
      Reach G c0 c → c.step l = some (e, c') → G c.state e → Reach G c0 c'

theorem Reach.mono {G H : M.State → Event M → Prop} {c0 c : Config M}
    (hGH : ∀ s e, G s e → H s e) (h : Reach G c0 c) : Reach H c0 c := by
  induction h with
  | refl => exact .refl
  | tail _ hstep hg ih => exact .tail ih hstep (hGH _ _ hg)

theorem Reach.trans {G : M.State → Event M → Prop} {c0 c c' : Config M}
    (h : Reach G c0 c) (h' : Reach G c c') : Reach G c0 c' := by
  induction h' with
  | refl => exact h
  | tail _ hstep hg ih => exact .tail ih hstep hg

/-- What a step does to the shared state. -/
theorem step_state {c c' : Config M} {l : Label M} {e : Event M} (h : c.step l = some (e, c')) :
    c'.state = c.state ∨
      (∃ t o ch r, e = .op t o ch ∧ M.exec t o ch c.state = some (r, c'.state)) ∨
      ∃ t, e = .cancel t ∧ c'.state = M.onCancel t c.state := by
  cases stepped h with
  | op hth hp hex => exact .inr (.inl ⟨_, _, _, _, rfl, hex⟩)
  | cancel hth hp hcan => exact .inr (.inr ⟨_, rfl, rfl⟩)
  | _ => exact .inl rfl

/-- Threads keep their jobs. -/
theorem job_of_step {c c' : Config M} {l : Label M} {e : Event M} {u : Nat} {j : E.Job}
    (h : c.step l = some (e, c')) (hj : c.job u = some j) : c'.job u = some j := by
  have happend {threads : List (Thread E)} {th : Thread E}
      (hu : threads[u]?.map Thread.job = some j) :
      (threads ++ [th])[u]?.map Thread.job = some j := by
    obtain ⟨thu, hthu, hjob⟩ := Option.map_eq_some_iff.mp hu
    rw [List.getElem?_append_left (List.getElem?_eq_some_iff.mp hthu).1, hthu]
    exact congrArg some hjob
  cases stepped h with
  | start hext => exact happend hj
  | spawn hth hp => exact happend ((setStatus_job hth _ u).trans hj)
  | finish hth hp | op hth hp hex | join hth hp | lost hth hp | cancel hth hp hcan =>
      exact (setStatus_job hth _ u).trans hj

theorem job_of_reach {G : M.State → Event M → Prop} {c0 c : Config M} (h : Reach G c0 c) {t : Nat}
    {j : E.Job} (hj : c0.job t = some j) : c.job t = some j := by
  induction h with
  | refl => exact hj
  | tail _ hstep _ ih => exact job_of_step hstep ih

/-- The jobs that were started on the way are among those of the last
configuration. -/
theorem Reach.starts {G : M.State → Event M → Prop} {c0 c last : Config M} (h : Reach G c0 c)
    (hlast : ∀ t j, c.job t = some j → last.job t = some j) :
    Reach (fun s e => G s e ∧ ∀ j, e = .start j → ∃ t, last.job t = some j) c0 c := by
  induction h with
  | refl => exact .refl
  | @tail c c' l e _ hstep hg ih =>
      refine .tail (ih fun t j hj => hlast t j (job_of_step hstep hj)) hstep ⟨hg, ?_⟩
      rintro j rfl
      cases stepped hstep with
      | start hext => exact ⟨c.threads.length, hlast _ _ (by simp [job])⟩

/-- A property of the shared state that every operation and every cancellation
keeps holds in every configuration that is reached. -/
theorem Reach.state_inv {G : M.State → Event M → Prop} {P : M.State → Prop} {c0 c : Config M}
    (hop : ∀ s t o ch r s', P s → M.exec t o ch s = some (r, s') → P s')
    (hcancel : ∀ s t, P s → P (M.onCancel t s)) (h0 : P c0.state) (h : Reach G c0 c) :
    P c.state := by
  induction h with
  | refl => exact h0
  | tail _ hstep _ ih =>
      rcases step_state hstep with hsame | ⟨t, o, ch, r, -, hex⟩ | ⟨t, -, hcan⟩
      · rw [hsame]
        exact ih
      · exact hop _ t o ch r _ ih hex
      · rw [hcan]
        exact hcancel _ t ih

/-- Replay a schedule, refusing it when a step is not enabled or misses the
condition. -/
def replay (G : M.State → Event M → Bool) (c : Config M) : List (Label M) → Option (Config M)
  | [] => some c
  | l :: ls =>
      match c.step l with
      | none => none
      | some (e, c') => if G c.state e then c'.replay G ls else none

theorem replay_reach {G : M.State → Event M → Bool} {c c' : Config M} {ls : List (Label M)}
    (h : c.replay G ls = some c') : Reach (fun s e => G s e = true) c c' := by
  induction ls generalizing c with
  | nil =>
      simp only [replay, Option.some.injEq] at h
      subst h
      exact .refl
  | cons l ls ih =>
      simp only [replay] at h
      cases hstep : c.step l with
      | none => simp [hstep] at h
      | some ec =>
          obtain ⟨e, next⟩ := ec
          simp only [hstep] at h
          by_cases hg : G c.state e = true
          · simp only [hg, if_true] at h
            exact Reach.trans (.tail .refl hstep hg) (ih h)
          · simp [hg] at h

/-- A schedule that ends in a configuration with the property `p`. -/
theorem reach_of_replay {G : M.State → Event M → Bool} {H : M.State → Event M → Prop}
    (hGH : ∀ s e, G s e = true → H s e) (c : Config M) (ls : List (Label M))
    (p : Config M → Bool) (h : (c.replay G ls).any p = true) :
    ∃ c', Reach H c c' ∧ p c' = true := by
  obtain ⟨c', hc, hp⟩ := Option.any_eq_true _ _ |>.mp h
  exact ⟨c', (replay_reach hc).mono hGH, hp⟩

/-- A schedule of a run on which there is no condition. -/
theorem reach_of_labels (c : Config M) (ls : List (Label M)) (p : Config M → Bool)
    (h : (c.replay (fun _ _ => true) ls).any p = true) :
    ∃ c', Reach (fun _ _ => True) c c' ∧ p c' = true :=
  reach_of_replay (fun _ _ _ => trivial) c ls p h

end Config

end BlobCache.Conc
