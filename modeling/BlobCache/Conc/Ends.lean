import BlobCache.Conc.Extend

/-!
The record of a thread. What a thread does next depends on nothing else than what
it has been told at its steps: the responses to its operations, the threads that
it started, and how those ended that it awaited. `After` says what a program
returns once it has been told something, and `Config.Logged` what each thread is
told in a run. `Ends` is the weaker account in which any responses will do.
-/

namespace BlobCache.Conc

variable {E : Effect} {α β : Type}

namespace Program

/-- The program can return `a`, after it started `hs` and awaited `js`, when the
responses to its operations are as `resp` allows. -/
def Ends (resp : (o : E.Op) → E.Resp o → Prop) :
    Program E α → List (Handle E) → List (Handle E × Option E.Val) → α → Prop
  | .ret b, hs, js, a => b = a ∧ hs = [] ∧ js = []
  | .op o k, hs, js, a => ∃ r, resp o r ∧ (k r).Ends resp hs js a
  | .spawn j k, hs, js, a => ∃ t hs', hs = ⟨t, j⟩ :: hs' ∧ (k ⟨t, j⟩).Ends resp hs' js a
  | .join h k, hs, js, a => ∃ v js', js = (h, v) :: js' ∧ (k v).Ends resp hs js' a

variable {resp : (o : E.Op) → E.Resp o → Prop} {hs : List (Handle E)}
  {js : List (Handle E × Option E.Val)} {a : α} {b : β}

/-- The record of a sequence is that of its parts. -/
theorem Ends.of_bind {p : Program E α} {f : α → Program E β}
    (h : (p >>= f).Ends resp hs js b) :
    ∃ a hs₁ hs₂ js₁ js₂, hs = hs₁ ++ hs₂ ∧ js = js₁ ++ js₂ ∧ p.Ends resp hs₁ js₁ a ∧
      (f a).Ends resp hs₂ js₂ b := by
  induction p generalizing hs js with
  | ret a => exact ⟨a, [], hs, [], js, rfl, rfl, ⟨rfl, rfl, rfl⟩, h⟩
  | op o k ih =>
      obtain ⟨r, hr, hrest⟩ := h
      obtain ⟨a, hs₁, hs₂, js₁, js₂, rfl, rfl, hk, hf⟩ := ih r hrest
      exact ⟨a, hs₁, hs₂, js₁, js₂, rfl, rfl, ⟨r, hr, hk⟩, hf⟩
  | spawn j k ih =>
      obtain ⟨t, hs', rfl, hrest⟩ := h
      obtain ⟨a, hs₁, hs₂, js₁, js₂, rfl, rfl, hk, hf⟩ := ih ⟨t, j⟩ hrest
      exact ⟨a, ⟨t, j⟩ :: hs₁, hs₂, js₁, js₂, rfl, rfl, ⟨t, hs₁, rfl, hk⟩, hf⟩
  | join hd k ih =>
      obtain ⟨v, js', rfl, hrest⟩ := h
      obtain ⟨a, hs₁, hs₂, js₁, js₂, rfl, rfl, hk, hf⟩ := ih v hrest
      exact ⟨a, hs₁, hs₂, (hd, v) :: js₁, js₂, rfl, rfl, ⟨v, js₁, rfl, hk⟩, hf⟩

theorem Ends.bind {p : Program E α} {f : α → Program E β} {hs' : List (Handle E)}
    {js' : List (Handle E × Option E.Val)} (h : p.Ends resp hs js a)
    (hf : (f a).Ends resp hs' js' b) : (p >>= f).Ends resp (hs ++ hs') (js ++ js') b := by
  induction p generalizing hs js with
  | ret a =>
      obtain ⟨rfl, rfl, rfl⟩ := h
      exact hf
  | op o k ih =>
      obtain ⟨r, hr, hrest⟩ := h
      exact ⟨r, hr, ih r hrest⟩
  | spawn j k ih =>
      obtain ⟨t, hs₁, rfl, hrest⟩ := h
      exact ⟨t, hs₁ ++ hs', rfl, ih ⟨t, j⟩ hrest⟩
  | join hd k ih =>
      obtain ⟨v, js₁, rfl, hrest⟩ := h
      exact ⟨v, js₁ ++ js', rfl, ih v hrest⟩

/-- What follows starts nothing and awaits nothing. -/
theorem Ends.followed {p : Program E α} {f : α → Program E β} (h : p.Ends resp hs js a)
    (hf : (f a).Ends resp [] [] b) : (p >>= f).Ends resp hs js b := by
  have hends := h.bind hf
  rw [List.append_nil, List.append_nil] at hends
  exact hends

end Program

/-- What a thread is told at a step of its own. -/
inductive Told (E : Effect) where
  | response (o : E.Op) (r : E.Resp o)
  | started (h : Handle E)
  | ended (h : Handle E) (v : Option E.Val)

/-- The threads that a thread started, by its log. -/
def starts (log : List (Told E)) : List (Handle E) :=
  log.filterMap fun
    | .started h => some h
    | _ => none

/-- The threads that a thread awaited, by its log, and how they ended. -/
def awaits (log : List (Told E)) : List (Handle E × Option E.Val) :=
  log.filterMap fun
    | .ended h v => some (h, v)
    | _ => none

namespace Program

/-- The program returns `a` once it has been told `log`. -/
def After : Program E α → List (Told E) → α → Prop
  | .ret b, log, a => b = a ∧ log = []
  | .op o k, log, a => ∃ r log', log = .response o r :: log' ∧ (k r).After log' a
  | .spawn j k, log, a => ∃ t log', log = .started ⟨t, j⟩ :: log' ∧ (k ⟨t, j⟩).After log' a
  | .join h k, log, a => ∃ v log', log = .ended h v :: log' ∧ (k v).After log' a

variable {log : List (Told E)} {a : α} {b : β}

theorem After.ends {p : Program E α} (h : p.After log a) :
    p.Ends (fun _ _ => True) (starts log) (awaits log) a := by
  induction p generalizing log with
  | ret b =>
      obtain ⟨rfl, rfl⟩ := h
      exact ⟨rfl, rfl, rfl⟩
  | op o k ih =>
      obtain ⟨r, log', rfl, h⟩ := h
      have hrest := ih r h
      exact ⟨r, trivial, hrest⟩
  | spawn j k ih =>
      obtain ⟨t, log', rfl, h⟩ := h
      exact ⟨t, starts log', rfl, ih _ h⟩
  | join hd k ih =>
      obtain ⟨v, log', rfl, h⟩ := h
      exact ⟨v, awaits log', rfl, ih v h⟩

theorem After.of_bind {p : Program E α} {f : α → Program E β} (h : (p >>= f).After log b) :
    ∃ a log₁ log₂, log = log₁ ++ log₂ ∧ p.After log₁ a ∧ (f a).After log₂ b := by
  induction p generalizing log with
  | ret a => exact ⟨a, [], log, rfl, ⟨rfl, rfl⟩, h⟩
  | op o k ih =>
      obtain ⟨r, log', rfl, h⟩ := h
      obtain ⟨a, log₁, log₂, rfl, hk, hf⟩ := ih r h
      exact ⟨a, _ :: log₁, log₂, rfl, ⟨r, log₁, rfl, hk⟩, hf⟩
  | spawn j k ih =>
      obtain ⟨t, log', rfl, h⟩ := h
      obtain ⟨a, log₁, log₂, rfl, hk, hf⟩ := ih _ h
      exact ⟨a, _ :: log₁, log₂, rfl, ⟨t, log₁, rfl, hk⟩, hf⟩
  | join hd k ih =>
      obtain ⟨v, log', rfl, h⟩ := h
      obtain ⟨a, log₁, log₂, rfl, hk, hf⟩ := ih v h
      exact ⟨a, _ :: log₁, log₂, rfl, ⟨v, log₁, rfl, hk⟩, hf⟩

/-- A program that hands its result on. -/
theorem After.of_map {p : Program E α} {f : α → β} (h : (p >>= fun a => pure (f a)).After log b) :
    ∃ a, b = f a ∧ p.After log a := by
  obtain ⟨a, log₁, log₂, rfl, hp, hb, rfl⟩ := h.of_bind
  rw [List.append_nil]
  exact ⟨a, hb.symm, hp⟩

/-- There is one result. -/
theorem After.unique {p : Program E α} {a' : α} (h : p.After log a) (h' : p.After log a') :
    a = a' := by
  induction p generalizing log with
  | ret b => exact h.1.symm.trans h'.1
  | op o k ih =>
      obtain ⟨r, log', rfl, h⟩ := h
      obtain ⟨_, _, heq, h'⟩ := h'
      cases heq
      exact ih r h h'
  | spawn j k ih =>
      obtain ⟨t, log', rfl, h⟩ := h
      obtain ⟨_, _, heq, h'⟩ := h'
      cases heq
      exact ih _ h h'
  | join hd k ih =>
      obtain ⟨v, log', rfl, h⟩ := h
      obtain ⟨_, _, heq, h'⟩ := h'
      cases heq
      exact ih v h h'

end Program

/-- How a thread ended: with a value, or it was lost. -/
def Status.ended : Option E.Val → Status E
  | some v => .done v
  | none => .cancelled

/-- What a thread has been told so far, followed by anything it can still be told, is
something that its body can be told. -/
def Status.Continues (body : Program E E.Val) (log : List (Told E)) : Status E → Prop
  | .running p => ∀ rest v, p.After rest v → body.After (log ++ rest) v
  | .done v => body.After log v
  | .cancelled => True

/-- A step of a thread, in which it is told `new`. -/
theorem Status.Continues.told {p q : Program E E.Val} {new : Told E}
    (h : ∀ rest v, q.After rest v → p.After (new :: rest) v) (body : Program E E.Val)
    (old : List (Told E)) (hcont : (Status.running p).Continues body old) :
    (Status.running q).Continues body (old ++ [new]) := by
  intro rest v hrest
  rw [List.append_assoc]
  exact hcont _ v (h rest v hrest)

namespace Config

variable {M : Machine E} {c c' : Config M} {log : Nat → List (Told E)}

/-- The thread of `h` ended with `v`. -/
def Ended (c : Config M) (h : Handle E) (v : Option E.Val) : Prop :=
  ∃ th, c.threads[h.tid]? = some th ∧ th.job = h.job ∧ th.status = .ended v

/-- The threads that `t` started, in the order in which it did. -/
def children (c : Config M) (t : Nat) : List (Handle E) :=
  ((c.threads.map fun th => (th.parent, th.job)).zipIdx.filter
    fun x => x.1.1 == some t).map fun x => ⟨x.2, x.1.2⟩

/-- A child is a thread that names its parent. -/
theorem thread_of_mem_children {t : Nat} {h : Handle E} (hmem : h ∈ c.children t) :
    ∃ th, c.threads[h.tid]? = some th ∧ th.parent = some t ∧ th.job = h.job := by
  simp only [children, List.mem_map, List.mem_filter, beq_iff_eq] at hmem
  obtain ⟨⟨⟨parent, job⟩, i⟩, ⟨hin, hparent⟩, rfl⟩ := hmem
  have hget := List.mem_zipIdx_iff_getElem?.mp hin
  rw [List.getElem?_map, Option.map_eq_some_iff] at hget
  obtain ⟨th, hth, heq⟩ := hget
  cases heq
  exact ⟨th, hth, hparent, rfl⟩

theorem children_setStatus {t : Nat} {th : Thread E} (hth : c.threads[t]? = some th)
    (st : Status E) (u : Nat) : (c.setStatus t th st).children u = c.children u := by
  have hsame : (c.threads.set t { th with status := st }).map (fun th => (th.parent, th.job)) =
      c.threads.map fun th => (th.parent, th.job) := by
    apply List.ext_getElem?
    intro i
    by_cases hi : i = t
    · subst hi
      simp only [List.getElem?_map, List.getElem?_set_self (lt_of_thread hth), hth,
        Option.map_some]
    · simp [List.getElem?_set_ne (Ne.symm hi)]
  simp only [children, setStatus, hsame]

theorem children_append (ths : List (Thread E)) (s : M.State) (new : Thread E) (u : Nat) :
    (Config.mk (M := M) s (ths ++ [new])).children u =
      (Config.mk (M := M) s ths).children u ++
        if new.parent = some u then [⟨ths.length, new.job⟩] else [] := by
  simp only [children, List.map_append, List.zipIdx_append, List.filter_append, List.map_cons,
    List.map_nil, List.zipIdx_cons, List.zipIdx_nil, List.length_map, Nat.zero_add,
    List.append_cancel_left_eq]
  by_cases hparent : new.parent = some u
  · simp [hparent]
  · simp [hparent]

/-- What the thread of an event is told by it. -/
def told (c : Config M) : Event M → List (Told E)
  | .op t o ch => (M.exec t o ch c.state).toList.map fun x => .response o x.1
  | .spawn _ j => [.started ⟨c.threads.length, j⟩]
  | .join _ h => [.ended h (c.result h.tid)]
  | _ => []

theorem told_op {t : Nat} {o : E.Op} {ch : M.Choice} {r : E.Resp o} {s : M.State}
    (hex : M.exec t o ch c.state = some (r, s)) : c.told (.op t o ch) = [.response o r] := by
  rw [told, hex]
  rfl

theorem told_join {h : Handle E} {v : Option E.Val} (hend : c.Ended h v) (t : Nat) :
    c.told (.join t h) = [.ended h v] := by
  obtain ⟨⟨job, parent, status⟩, hth, -, rfl⟩ := hend
  rw [told, result, hth]
  cases v with
  | none => rfl
  | some v => rfl

/-- The log after a step. -/
def logged (c : Config M) (e : Event M) (log : Nat → List (Told E)) (t : Nat) : List (Told E) :=
  log t ++ if e.tid = some t then c.told e else []

/-- The log of a thread that may not be there yet. -/
def Lives (M : Machine E) (log : List (Told E)) : Option (Thread E) → Prop
  | none => log = []
  | some th => th.status.Continues (M.body th.job) log

/-- The log agrees with the threads. -/
structure Recorded (log : Nat → List (Told E)) (c : Config M) : Prop where
  record : ∀ t, Lives M (log t) c.threads[t]?
  started : ∀ t, starts (log t) = c.children t
  awaited : ∀ t, ∀ x ∈ awaits (log t), c.Ended x.1 x.2

namespace Stepped

variable {e : Event M}

/-- A thread that has ended stays as it is. -/
theorem ended (h : c.Stepped e c') {hd : Handle E} {v : Option E.Val} (hend : c.Ended hd v) :
    c'.Ended hd v := by
  obtain ⟨th, hth, hjob, hst⟩ := hend
  refine ⟨th, h.thread_of_ne hth ?_, hjob, hst⟩
  intro he
  obtain ⟨th', p, hth', hp⟩ := h.running he
  cases hth.symm.trans hth'
  rw [hp] at hst
  cases v <;> cases hst

/-- What is told about threads is true of them. -/
theorem told_spec (h : c.Stepped e c') :
    (∀ x ∈ awaits (c.told e), c.Ended x.1 x.2) ∧
      ∀ t, c'.children t = c.children t ++ starts (if e.tid = some t then c.told e else []) := by
  have hkeep : ∀ {t : Nat} {th : Thread E} {st : Status E}, c.threads[t]? = some th →
      ∀ (u : Nat) {p : Prop} [Decidable p] {new : List (Told E)}, starts new = [] →
        (c.setStatus t th st).children u = c.children u ++ starts (if p then new else []) := by
    intro t th st hth u p _ new hnew
    rw [children_setStatus hth]
    split
    · rw [hnew, List.append_nil]
    · exact (List.append_nil _).symm
  have hawait : ∀ {t : Nat} {hd : Handle E} {v : Option E.Val}, c.Ended hd v →
      ∀ x ∈ awaits (c.told (.join t hd)), c.Ended x.1 x.2 := by
    intro t hd v hend x hx
    rw [told_join hend] at hx
    rw [List.mem_singleton.mp hx]
    exact hend
  cases h with
  | start _ => exact ⟨nofun, fun t => children_append c.threads c.state _ t⟩
  | finish hth _ | cancel hth _ _ => exact ⟨nofun, fun t => hkeep hth t rfl⟩
  | op hth _ hex =>
      rw [told_op hex]
      exact ⟨nofun, fun t => hkeep hth t rfl⟩
  | @spawn t th j k hth _ =>
      refine ⟨nofun, fun u => (children_append _ c.state _ u).trans ?_⟩
      have hsame := children_setStatus hth (.running (k ⟨c.threads.length, j⟩)) u
      have hlength : (c.setStatus t th (.running (k ⟨c.threads.length, j⟩))).threads.length =
          c.threads.length := List.length_set
      rw [hlength]
      change _ ++ (if some t = some u then _ else _) =
        _ ++ starts (if some t = some u then _ else _)
      split <;> exact congrArg (· ++ _) hsame
  | @join _ _ _ hd _ v hth _ hchild hjob hst =>
      have hend : c.Ended hd (some v) := ⟨_, hchild, hjob, hst⟩
      exact ⟨hawait hend, fun t => hkeep hth t rfl⟩
  | @lost _ _ _ hd _ hth _ hchild hjob hst =>
      have hend : c.Ended hd none := ⟨_, hchild, hjob, hst⟩
      exact ⟨hawait hend, fun t => hkeep hth t rfl⟩

end Stepped

namespace Recorded

theorem init (s : M.State) : (Config.init s : Config M).Recorded fun _ => [] where
  record _ := rfl
  started _ := rfl
  awaited := nofun

/-- A step of one thread, in which it is told `new`. -/
theorem lives_set (h : c.Recorded log) {t : Nat} {th : Thread E} {p : Program E E.Val}
    (hth : c.threads[t]? = some th) (hp : th.status = .running p) {st : Status E}
    {new : List (Told E)} (hst : ∀ body old, (Status.running p).Continues body old →
      st.Continues body (old ++ new)) (u : Nat) :
    Lives M (log u ++ if some t = some u then new else []) (c.setStatus t th st).threads[u]? := by
  have hu := h.record u
  by_cases hut : t = u
  · subst hut
    rw [setStatus, List.getElem?_set_self (lt_of_thread hth), if_pos rfl]
    rw [hth, Lives, hp] at hu
    exact hst _ _ hu
  · rw [setStatus, List.getElem?_set_ne hut, if_neg fun heq => hut (Option.some.inj heq),
      List.append_nil]
    exact hu

/-- A new thread has been told nothing. -/
theorem lives_append {ths : List (Thread E)} (h : ∀ u, Lives M (log u) ths[u]?) (j : E.Job)
    (parent : Option Nat) (u : Nat) :
    Lives M (log u) (ths ++ [⟨j, parent, .running (M.body j)⟩])[u]? := by
  have hu := h u
  rcases Nat.lt_trichotomy u ths.length with hlt | rfl | hgt
  · rw [List.getElem?_append_left hlt]
    exact hu
  · rw [List.getElem?_eq_none le_rfl] at hu
    rw [List.getElem?_concat_length, hu]
    exact fun rest v hrest => hrest
  · rw [List.getElem?_eq_none hgt.le] at hu
    rw [List.getElem?_eq_none (by simpa using Nat.succ_le_of_lt hgt)]
    exact hu

theorem step (h : c.Recorded log) {e : Event M} (hstep : c.Stepped e c') :
    c'.Recorded (c.logged e log) where
  record := by
    have hold : ∀ u, Lives M (log u ++ []) c.threads[u]? := by
      intro u
      rw [List.append_nil]
      exact h.record u
    cases hstep with
    | start _ => exact lives_append hold _ _
    | finish hth hp => exact h.lives_set hth hp fun _ _ hcont => hcont [] _ ⟨rfl, rfl⟩
    | op hth hp hex =>
        unfold logged
        rw [told_op hex]
        exact h.lives_set hth hp (.told fun rest v hrest => ⟨_, rest, rfl, hrest⟩)
    | spawn hth hp =>
        apply lives_append
        exact h.lives_set hth hp (.told fun rest v hrest => ⟨_, rest, rfl, hrest⟩)
    | @join _ _ _ hd _ v hth hp hchild hjob hst =>
        have hend : c.Ended hd (some v) := ⟨_, hchild, hjob, hst⟩
        unfold logged
        rw [told_join hend]
        exact h.lives_set hth hp (.told fun rest v hrest => ⟨_, rest, rfl, hrest⟩)
    | @lost _ _ _ hd _ hth hp hchild hjob hst =>
        have hend : c.Ended hd none := ⟨_, hchild, hjob, hst⟩
        unfold logged
        rw [told_join hend]
        exact h.lives_set hth hp (.told fun rest v hrest => ⟨_, rest, rfl, hrest⟩)
    | cancel hth hp _ => exact h.lives_set hth hp fun _ _ _ => trivial
  started t := by
    rw [logged, starts, List.filterMap_append]
    exact (congrArg (· ++ _) (h.started t)).trans (hstep.told_spec.2 t).symm
  awaited t x hx := by
    rw [logged, awaits, List.filterMap_append, List.mem_append] at hx
    rcases hx with hx | hx
    · exact hstep.ended (h.awaited t x hx)
    · split at hx
      · exact hstep.ended (hstep.told_spec.1 x hx)
      · cases hx

/-- A thread that returned a value was told what leads to it. -/
theorem after (h : c.Recorded log) {hd : Handle E} {v : E.Val} (hend : c.Ended hd (some v)) :
    (M.body hd.job).After (log hd.tid) v := by
  obtain ⟨th, hth, hjob, hst⟩ := hend
  have hlives := h.record hd.tid
  rw [hth, Lives, hst, hjob] at hlives
  exact hlives

/-- A thread that is about to return a value has done what it had to do for it. -/
theorem ends_of_ret (h : c.Recorded log) {t : Nat} {th : Thread E} {v : E.Val}
    (hth : c.threads[t]? = some th) (hst : th.status = .running (.ret v)) :
    ∃ js : List (Handle E × Option E.Val), (∀ x ∈ js, c.Ended x.1 x.2) ∧
      (M.body th.job).Ends (fun _ _ => True) (c.children t) js v := by
  have hlives := h.record t
  rw [hth, Lives, hst] at hlives
  have hends := (hlives [] v ⟨rfl, rfl⟩).ends
  rw [List.append_nil, h.started] at hends
  exact ⟨_, h.awaited t, hends⟩

/-- A thread that returned a value did so after it started its children and awaited threads
that ended as they did. -/
theorem ends (h : c.Recorded log) {hd : Handle E} {v : E.Val} (hend : c.Ended hd (some v)) :
    ∃ js : List (Handle E × Option E.Val), (∀ x ∈ js, c.Ended x.1 x.2) ∧
      (M.body hd.job).Ends (fun _ _ => True) (c.children hd.tid) js v := by
  have hends := (h.after hend).ends
  rw [h.started] at hends
  exact ⟨_, h.awaited hd.tid, hends⟩

end Recorded

variable [DecidableEq E.Job] {s : M.State}

/-- A run from the state `s` to `c`, and what each thread is told in it. -/
inductive Logged (s : M.State) : Config M → (Nat → List (Told E)) → Prop where
  | refl : Logged s (.init s) fun _ => []
  | tail {c c' : Config M} {log : Nat → List (Told E)} {l : Label M} {e : Event M} :
      Logged s c log → c.step l = some (e, c') → Logged s c' (c.logged e log)

theorem Reach.exists_log {G : M.State → Event M → Prop} (h : Reach G (.init s) c) :
    ∃ log, Logged s c log := by
  induction h with
  | refl => exact ⟨_, .refl⟩
  | tail _ hstep _ ih =>
      obtain ⟨log, hlog⟩ := ih
      exact ⟨_, hlog.tail hstep⟩

theorem Logged.recorded (h : Logged s c log) : c.Recorded log := by
  induction h with
  | refl => exact Recorded.init s
  | tail _ hstep ih => exact ih.step (stepped hstep)

/-- A run has a log that agrees with its threads. -/
theorem Reach.recorded {G : M.State → Event M → Prop} (h : Reach G (.init s) c) :
    ∃ log, c.Recorded log := by
  obtain ⟨log, hlog⟩ := h.exists_log
  exact ⟨log, hlog.recorded⟩

/-- A response is that of an operation. -/
theorem Logged.exists_exec (h : Logged s c log) {t : Nat} {o : E.Op} {r : E.Resp o}
    (hmem : .response o r ∈ log t) : ∃ u ch s₁ s₂, M.exec u o ch s₁ = some (r, s₂) := by
  induction h with
  | refl => cases hmem
  | tail _ hstep ih =>
      rcases List.mem_append.mp hmem with hold | hnew
      · exact ih hold
      · split at hnew
        · cases stepped hstep with
          | op _ _ hex =>
              rw [told_op hex] at hnew
              cases List.mem_singleton.mp hnew
              exact ⟨_, _, _, _, hex⟩
          | spawn _ _ | join _ _ _ _ _ | lost _ _ _ _ _ => cases List.mem_singleton.mp hnew
          | _ => cases hnew
        · cases hnew

section Extended

variable {X : Effect} [DecidableEq X.Job] [DecidableEq X.Val] {N : Machine (E.extend X)}
  {d : Config N} {t : Nat} {j : X.Job} {v : X.Val}

/-- Thread `t` has finished a job of the second family. -/
def answered (d : Config N) (t : Nat) (j : X.Job) (v : X.Val) : Bool :=
  d.job t = some (.inr j) ∧ (d.result t).bind Sum.getRight? = some v

theorem result_of_answered (h : d.answered t j v = true) :
    d.job t = some (.inr j) ∧ d.result t = some (.inr v) := by
  obtain ⟨hjob, hresult⟩ := of_decide_eq_true h
  obtain ⟨w, hw, hright⟩ := Option.bind_eq_some_iff.mp hresult
  cases Sum.getRight?_eq_some_iff.mp hright
  exact ⟨hjob, hw⟩

theorem ended_of_answered (h : d.answered t j v = true) :
    d.Ended ⟨t, .inr j⟩ (some (.inr v)) :=
  thread_of_result (result_of_answered h).1 (result_of_answered h).2

end Extended

end Config

end BlobCache.Conc
