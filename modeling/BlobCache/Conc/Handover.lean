import BlobCache.Conc.Extend

/-!
Keys that are handed from thread to thread. A thread takes a key with an operation
and hands it at once to the task that it starts for it; the task releases the key with
the last operation it performs. `Keeps` says so for the text of a program.

If a key is taken only while nobody holds it, then every key has at most one keeper, a
thread that is about to start the task or the task until it has released the key, and
a key that has a keeper is held. So where no key is held, every task is over.
-/

namespace BlobCache.Conc

variable {E : Effect} {α β : Type}

/-- `takes` names the task that is started for what an operation takes. -/
structure Roles (E : Effect) where
  Key : Type
  takes : E.Op → Option E.Job
  releases : E.Op → Option Key
  task : E.Job → Option Key

/-! ## Programs -/

/-- The program of a thread that is the task of `own`, or of none. -/
inductive Program.Keeps (R : Roles E) (own : Option R.Key) : Program E α → Prop where
  | ret (a : α) : Keeps R own (.ret a)
  | op {o : E.Op} {k : E.Resp o → Program E α} (htakes : R.takes o = none)
      (hreleases : R.releases o = none) (hk : ∀ r, Keeps R own (k r)) : Keeps R own (.op o k)
  | take {o : E.Op} {k : E.Resp o → Program E α} {j : E.Job} {g : Handle E → Program E α}
      (hown : own = none) (htakes : R.takes o = some j) (hk : ∀ r, k r = .spawn j g)
      (hg : ∀ h, Keeps R own (g h)) : Keeps R own (.op o k)
  | release {o : E.Op} {k : E.Resp o → Program E α} {key : R.Key} (hown : own = some key)
      (hreleases : R.releases o = some key) (hk : ∀ r, ∃ a, k r = .ret a) : Keeps R own (.op o k)
  | spawn {j : E.Job} {k : Handle E → Program E α} (htask : R.task j = none)
      (hk : ∀ h, Keeps R own (k h)) : Keeps R own (.spawn j k)
  | join {h : Handle E} {k : Option E.Val → Program E α} (hk : ∀ v, Keeps R own (k v)) :
      Keeps R own (.join h k)

namespace Program

variable {R : Roles E} {own : Option R.Key}

theorem Keeps.bind {p : Program E α} {f : α → Program E β} (h : p.Keeps R none)
    (hf : ∀ a, (f a).Keeps R none) : (p >>= f).Keeps R none := by
  induction h with
  | ret a => exact hf a
  | op htakes hreleases _ ih => exact .op htakes hreleases ih
  | @take o k j g hown htakes hk _ ih =>
      refine .take (g := fun h => (g h).bind f) hown htakes ?_ ih
      intro r
      rw [hk r]
      rfl
  | release hown _ _ => cases hown
  | spawn htask _ ih => exact .spawn htask ih
  | join _ ih => exact .join ih

/-- What follows is only a value. -/
theorem Keeps.map {p : Program E α} (h : p.Keeps R own) (f : α → β) :
    (p >>= fun a => pure (f a)).Keeps R own := by
  induction h with
  | ret a => exact .ret (f a)
  | op htakes hreleases _ ih => exact .op htakes hreleases ih
  | @take o k j g hown htakes hk _ ih =>
      refine .take (g := fun h => (g h).bind fun a => .ret (f a)) hown htakes ?_ ih
      intro r
      rw [hk r]
      rfl
  | @release o k key hown hreleases hk =>
      refine .release hown hreleases ?_
      intro r
      obtain ⟨a, ha⟩ := hk r
      rw [ha]
      exact ⟨f a, rfl⟩
  | spawn htask _ ih => exact .spawn htask ih
  | join _ ih => exact .join ih

/-- A task is started only right after its key was taken. -/
theorem Keeps.task_of_spawn {j : E.Job} {k : Handle E → Program E α}
    (h : (Program.spawn j k).Keeps R own) : R.task j = none := by
  cases h with
  | spawn htask _ => exact htask

theorem Keeps.perform {o : E.Op} (htakes : R.takes o = none) (hreleases : R.releases o = none) :
    (Program.perform o).Keeps R own :=
  .op htakes hreleases fun r => .ret r

end Program

/-- The roles of a family that is extended by jobs and operations without any. -/
def Roles.extend (R : Roles E) (X : Effect) : Roles (E.extend X) where
  Key := R.Key
  takes := Sum.elim (fun o => (R.takes o).map Sum.inl) fun _ => none
  releases := Sum.elim R.releases fun _ => none
  task := Sum.elim R.task fun _ => none

theorem Program.Keeps.lift {R : Roles E} {own : Option R.Key} (X : Effect) {p : Program E α}
    (h : p.Keeps R own) : (p.lift X).Keeps (R.extend X) own := by
  induction h with
  | ret a => exact .ret a
  | @op o k htakes hreleases _ ih =>
      apply Keeps.op (E := E.extend X)
      · change (R.takes o).map Sum.inl = none
        rw [htakes, Option.map_none]
      · exact hreleases
      · exact ih
  | @take o k j g hown htakes hk _ ih =>
      apply Keeps.take (E := E.extend X) (j := .inl j) (g := fun h => (g ⟨h.tid, j⟩).lift X) hown
      · change (R.takes o).map Sum.inl = _
        rw [htakes, Option.map_some]
        rfl
      · intro r
        rw [hk r]
        rfl
      · intro h
        exact ih ⟨h.tid, j⟩
  | @release o k key hown hreleases hk =>
      apply Keeps.release (E := E.extend X) hown hreleases
      intro r
      obtain ⟨a, ha⟩ := hk r
      rw [ha]
      exact ⟨a, rfl⟩
  | @spawn j k htask _ ih =>
      apply Keeps.spawn (E := E.extend X) htask
      intro h
      exact ih ⟨h.tid, j⟩
  | join _ ih =>
      apply Keeps.join (E := E.extend X)
      intro v
      exact ih (v.bind Sum.getLeft?)

/-! ## Configurations -/

/-- The thread has nothing left to do. -/
def Status.Over (st : Status E) : Prop := (∃ v, st = .running (.ret v)) ∨ ∃ v, st = .done v

theorem Status.not_over_running {p : Program E E.Val} (h : ∀ v, p ≠ .ret v) :
    ¬ (Status.running p).Over := by
  rintro (⟨v, hv⟩ | ⟨v, hv⟩)
  · exact h v (Status.running.inj hv)
  · cases hv

/-- A thread with this job and this status keeps the key. -/
def Roles.Keeper (R : Roles E) (job : E.Job) (st : Status E) (key : R.Key) : Prop :=
  R.task job = some key ∧ ¬ st.Over ∨
    ∃ j g, st = .running (.spawn j g) ∧ R.task j = some key

/-- The program keeps to its role, or it is about to start the task it has taken a key for. -/
def Roles.Follows (R : Roles E) (job : E.Job) (p : Program E E.Val) : Prop :=
  p.Keeps R (R.task job) ∨
    R.task job = none ∧ ∃ j g, p = .spawn j g ∧ ∀ h, (g h).Keeps R none

namespace Config

variable {M : Machine E} {R : Roles E} {held : M.State → R.Key → Prop} {c c' : Config M}

/-- Thread `t` keeps the key. -/
def Keeper (R : Roles E) (c : Config M) (t : Nat) (key : R.Key) : Prop :=
  ∃ th, c.threads[t]? = some th ∧ R.Keeper th.job th.status key

/-- The condition of all threads: a key with a keeper is held, and it has only one. -/
structure InCustody (R : Roles E) (held : M.State → R.Key → Prop) (c : Config M) : Prop where
  follows : ∀ (t : Nat) (th : Thread E) (p : Program E E.Val), c.threads[t]? = some th →
    th.status = .running p → R.Follows th.job p
  held : ∀ t key, c.Keeper R t key → held c.state key
  unique : ∀ t u key, c.Keeper R t key → c.Keeper R u key → t = u

namespace InCustody

theorem init (s : M.State) : (Config.init s : Config M).InCustody R held where
  follows t th p hth := by simp [Config.init] at hth
  held t key h := by
    obtain ⟨th, hth, -⟩ := h
    simp [Config.init] at hth
  unique t u key h := by
    obtain ⟨th, hth, -⟩ := h
    simp [Config.init] at hth

/-- A step of one thread. The other keepers stay, and it may be one afterwards if it is the
only one for its key. -/
theorem setStatus (h : c.InCustody R held) {t : Nat} {th : Thread E}
    (hth : c.threads[t]? = some th) {st : Status E} {s : M.State}
    (hfollows : ∀ p, st = .running p → R.Follows th.job p)
    (hothers : ∀ u key, u ≠ t → c.Keeper R u key → held s key)
    (hself : ∀ key, R.Keeper th.job st key → held s key)
    (halone : ∀ u key, u ≠ t → c.Keeper R u key → ¬ R.Keeper th.job st key) :
    InCustody R held { c.setStatus t th st with state := s } := by
  have hkeeper : ∀ u key, Keeper R { c.setStatus t th st with state := s } u key →
      u ≠ t ∧ c.Keeper R u key ∨ u = t ∧ R.Keeper th.job st key := by
    intro u key hk
    obtain ⟨thu, hu, hk⟩ := hk
    rcases thread_setStatus hth hu with ⟨hut, hold⟩ | ⟨hut, hnew⟩
    · exact .inl ⟨hut, thu, hold, hk⟩
    · rw [hnew] at hk
      exact .inr ⟨hut, hk⟩
  constructor
  · intro u thu p hu hp
    rcases thread_setStatus hth hu with ⟨-, hold⟩ | ⟨-, hnew⟩
    · exact h.follows u thu p hold hp
    · rw [hnew] at hp ⊢
      exact hfollows p hp
  · intro u key hk
    rcases hkeeper u key hk with ⟨hut, hold⟩ | ⟨-, hnew⟩
    · exact hothers u key hut hold
    · exact hself key hnew
  · intro u v key hu hv
    rcases hkeeper u key hu with ⟨hut, hold⟩ | ⟨hut, hnew⟩
    · rcases hkeeper v key hv with ⟨-, hold'⟩ | ⟨-, hnew⟩
      · exact h.unique u v key hold hold'
      · exact absurd hnew (halone u key hut hold)
    · rcases hkeeper v key hv with ⟨hvt, hold⟩ | ⟨hvt, -⟩
      · exact absurd hnew (halone v key hvt hold)
      · rw [hut, hvt]

/-- A step after which the thread keeps no key that it did not keep before. -/
theorem setStatus_of_less (h : c.InCustody R held) {t : Nat} {th : Thread E}
    (hth : c.threads[t]? = some th) {st : Status E} {s : M.State}
    (hfollows : ∀ p, st = .running p → R.Follows th.job p)
    (hless : ∀ key, R.Keeper th.job st key → R.Keeper th.job th.status key)
    (hheld : ∀ key, held c.state key → held s key) :
    InCustody R held { c.setStatus t th st with state := s } := by
  refine h.setStatus hth hfollows ?_ ?_ ?_
  · intro u key _ hu
    exact hheld key (h.held u key hu)
  · intro key hk
    exact hheld key (h.held t key ⟨th, hth, hless key hk⟩)
  · intro u key hut hu hk
    exact hut (h.unique u t key hu ⟨th, hth, hless key hk⟩)

/-- A step to a program that keeps to the role of the thread. -/
theorem running (h : c.InCustody R held) {t : Nat} {th : Thread E} {p q : Program E E.Val}
    (hth : c.threads[t]? = some th) (hp : th.status = .running p) (hnotRet : ∀ v, p ≠ .ret v)
    (hq : q.Keeps R (R.task th.job)) {s : M.State}
    (hheld : ∀ key, held c.state key → held s key) :
    InCustody R held { c.setStatus t th (.running q) with state := s } := by
  apply h.setStatus_of_less hth
  · intro p' hp'
    rw [← Status.running.inj hp']
    exact .inl hq
  · intro key hk
    rcases hk with ⟨htask, -⟩ | ⟨i, g, hspawn, htask⟩
    · rw [hp]
      exact .inl ⟨htask, Status.not_over_running hnotRet⟩
    · rw [Status.running.inj hspawn] at hq
      rw [hq.task_of_spawn] at htask
      cases htask
  · exact hheld

/-- A new thread, which keeps nothing or is the task of a key that nobody else keeps. -/
theorem append (h : c.InCustody R held) {j : E.Job} (parent : Option Nat)
    (hbody : (M.body j).Keeps R (R.task j))
    (hheld : ∀ key, R.task j = some key → held c.state key)
    (halone : ∀ u key, R.task j = some key → ¬ c.Keeper R u key) :
    InCustody R held { c with threads := c.threads ++ [⟨j, parent, .running (M.body j)⟩] } := by
  have hkeeper : ∀ u key, Keeper R
      { c with threads := c.threads ++ [⟨j, parent, .running (M.body j)⟩] } u key →
      c.Keeper R u key ∨ u = c.threads.length ∧ R.task j = some key := by
    intro u key hk
    obtain ⟨thu, hu, hk⟩ := hk
    rcases thread_append hu with hold | ⟨hlast, hnew⟩
    · exact .inl ⟨thu, hold, hk⟩
    · rw [hnew] at hk
      rcases hk with ⟨htask, -⟩ | ⟨i, g, hspawn, htask⟩
      · exact .inr ⟨hlast, htask⟩
      · rw [Status.running.inj hspawn] at hbody
        rw [hbody.task_of_spawn] at htask
        cases htask
  constructor
  · intro u thu p hu hp
    rcases thread_append hu with hold | ⟨-, hnew⟩
    · exact h.follows u thu p hold hp
    · rw [hnew] at hp ⊢
      cases hp
      exact .inl hbody
  · intro u key hk
    rcases hkeeper u key hk with hold | ⟨-, htask⟩
    · exact h.held u key hold
    · exact hheld key htask
  · intro u v key hu hv
    rcases hkeeper u key hu with hold | ⟨hlast, htask⟩
    · rcases hkeeper v key hv with hold' | ⟨-, htask⟩
      · exact h.unique u v key hold hold'
      · exact absurd hold (halone u key htask)
    · rcases hkeeper v key hv with hold | ⟨hlast', -⟩
      · exact absurd hold (halone v key htask)
      · rw [hlast, hlast']

/-- Where nothing is held, every task is over. -/
theorem task_over (h : c.InCustody R held) (hnone : ∀ key, ¬ held c.state key) {t : Nat}
    {th : Thread E} {key : R.Key} (hth : c.threads[t]? = some th)
    (htask : R.task th.job = some key) : th.status.Over := by
  by_contra hover
  exact hnone key (h.held t key ⟨th, hth, .inl ⟨htask, hover⟩⟩)

end InCustody

end Config

/-- What a machine has to do for the roles, in the steps that `G` allows. A key is taken only
while it is not held, and it stays held until it is released. -/
structure Roles.Lawful (R : Roles E) (M : Machine E) (G : M.State → Event M → Prop)
    (held : M.State → R.Key → Prop) : Prop where
  body : ∀ j, (M.body j).Keeps R (R.task j)
  external : ∀ j, M.external j = true → R.task j = none
  ret : ∀ j v, M.cancellable j (.ret v) = false
  plain : ∀ {t o ch s r s' key}, G s (.op t o ch) → M.exec t o ch s = some (r, s') →
    R.takes o = none → R.releases o = none → held s key → held s' key
  take : ∀ {t o ch s r s' j key}, G s (.op t o ch) → M.exec t o ch s = some (r, s') →
    R.takes o = some j → R.task j = some key → ¬ held s key ∧ held s' key
  taken : ∀ {t o ch s r s' j key}, G s (.op t o ch) → M.exec t o ch s = some (r, s') →
    R.takes o = some j → held s key → held s' key
  release : ∀ {t o ch s r s' key key'}, M.exec t o ch s = some (r, s') →
    R.releases o = some key → key' ≠ key → held s key' → held s' key'
  cancel : ∀ {t s key}, held s key → held (M.onCancel t s) key

namespace Config

variable {M : Machine E} {R : Roles E} {held : M.State → R.Key → Prop} {c c' : Config M}
  {G : M.State → Event M → Prop}

/-- The key is taken for the task that the thread starts next. -/
theorem InCustody.take (h : c.InCustody R held) {t : Nat} {th : Thread E} {j : E.Job}
    {g : Handle E → Program E E.Val} (hth : c.threads[t]? = some th)
    (hrole : R.task th.job = none) (hg : ∀ h, (g h).Keeps R none) {s : M.State}
    (hfree : ∀ key, R.task j = some key → ¬ held c.state key ∧ held s key)
    (hheld : ∀ key, held c.state key → held s key) :
    InCustody R held { c.setStatus t th (.running (.spawn j g)) with state := s } := by
  have hnew : ∀ key, R.Keeper th.job (.running (.spawn j g)) key → R.task j = some key := by
    intro key hk
    rcases hk with ⟨htask, -⟩ | ⟨i, g', hspawn, htask⟩
    · rw [hrole] at htask
      cases htask
    · cases hspawn
      exact htask
  apply h.setStatus hth
  · intro p hp
    rw [← Status.running.inj hp]
    exact .inr ⟨hrole, j, g, rfl, hg⟩
  · intro u key _ hu
    exact hheld key (h.held u key hu)
  · intro key hk
    exact (hfree key (hnew key hk)).2
  · intro u key _ hu hk
    exact (hfree key (hnew key hk)).1 (h.held u key hu)

/-- The task releases its key and is over. -/
theorem InCustody.release (h : c.InCustody R held) {t : Nat} {th : Thread E} {o : E.Op}
    {k : E.Resp o → Program E E.Val} (hth : c.threads[t]? = some th)
    (hp : th.status = .running (.op o k)) {key : R.Key} (hrole : R.task th.job = some key)
    {a : E.Val} {s : M.State} (hheld : ∀ key', key' ≠ key → held c.state key' → held s key') :
    InCustody R held { c.setStatus t th (.running (.ret a)) with state := s } := by
  have hkeeper : c.Keeper R t key := by
    refine ⟨th, hth, .inl ⟨hrole, ?_⟩⟩
    rw [hp]
    exact Status.not_over_running (by simp)
  have hnone : ∀ key', ¬ R.Keeper th.job (.running (.ret a)) key' := by
    intro key' hk
    rcases hk with ⟨-, hover⟩ | ⟨i, g, hspawn, -⟩
    · exact hover (.inl ⟨a, rfl⟩)
    · cases hspawn
  apply h.setStatus hth
  · intro p hp
    rw [← Status.running.inj hp]
    exact .inl (.ret a)
  · intro u key' hut hu
    apply hheld key' _ (h.held u key' hu)
    rintro rfl
    exact hut (h.unique u t key' hu hkeeper)
  · intro key' hk
    exact absurd hk (hnone key')
  · intro u key' _ _
    exact hnone key'

/-- A thread starts another, to which it hands what it has taken for it. -/
theorem InCustody.spawn (h : c.InCustody R held) {t : Nat} {th : Thread E} {j : E.Job}
    {k : Handle E → Program E E.Val} (hbody : (M.body j).Keeps R (R.task j))
    (hth : c.threads[t]? = some th) (hp : th.status = .running (.spawn j k)) :
    InCustody R held { c with
      threads := (c.setStatus t th (.running (k ⟨c.threads.length, j⟩))).threads ++
        [⟨j, some t, .running (M.body j)⟩] } := by
  have hnotRet : ∀ v, (Program.spawn j k : Program E E.Val) ≠ .ret v := by simp
  rcases h.follows t th _ hth hp with hkeeps | ⟨hrole, i, g, hspawn, hg⟩
  · have hk : ∀ h, (k h).Keeps R (R.task th.job) := by
      cases hkeeps with
      | spawn _ hk => exact hk
    apply (h.running hth hp hnotRet (hk ⟨c.threads.length, j⟩) fun _ hkey => hkey).append
      (some t) hbody
    · intro key htask
      rw [hkeeps.task_of_spawn] at htask
      cases htask
    · intro u key htask
      rw [hkeeps.task_of_spawn] at htask
      cases htask
  · cases hspawn
    have hk : (k ⟨c.threads.length, j⟩).Keeps R (R.task th.job) := by
      rw [hrole]
      exact hg _
    have hkeeper : ∀ key, R.task j = some key → c.Keeper R t key := by
      intro key htask
      exact ⟨th, hth, .inr ⟨j, k, hp, htask⟩⟩
    apply (h.running hth hp hnotRet hk fun _ hkey => hkey).append (some t) hbody
    · intro key htask
      exact h.held t key (hkeeper key htask)
    · intro u key htask hu
      obtain ⟨thu, hthu, hku⟩ := hu
      rcases thread_setStatus hth hthu with ⟨hut, hold⟩ | ⟨rfl, rfl⟩
      · exact hut (h.unique u t key ⟨thu, hold, hku⟩ (hkeeper key htask))
      · rcases hku with ⟨hown, -⟩ | ⟨i, g, hnext, hown⟩
        · rw [hrole] at hown
          cases hown
        · rw [Status.running.inj hnext] at hk
          rw [hk.task_of_spawn] at hown
          cases hown

theorem InCustody.step (h : c.InCustody R held) (laws : R.Lawful M G held) {e : Event M}
    (hstep : c.Stepped e c') (hG : G c.state e) : c'.InCustody R held := by
  cases hstep with
  | @start j hext =>
      have htask := laws.external j hext
      apply h.append none (laws.body j)
      · intro key hkey
        rw [htask] at hkey
        cases hkey
      · intro u key hkey
        rw [htask] at hkey
        cases hkey
  | @finish t th v hth hp =>
      apply h.setStatus_of_less hth
      · intro p hdone
        cases hdone
      · intro key hk
        rcases hk with ⟨-, hover⟩ | ⟨i, g, hdone, -⟩
        · exact absurd (.inr ⟨v, rfl⟩) hover
        · cases hdone
      · intro key hkey
        exact hkey
  | @op t th o k ch r s hth hp hex =>
      rcases h.follows t th _ hth hp with hkeeps | ⟨-, i, g, hspawn, -⟩
      · cases hkeeps with
        | op htakes hreleases hk =>
            apply h.running hth hp (by simp) (hk r)
            intro key hkey
            exact laws.plain hG hex htakes hreleases hkey
        | @take _ _ j g hown htakes hk hg =>
            rw [hk r]
            rw [hown] at hg
            apply h.take hth hown hg
            · intro key htask
              exact laws.take hG hex htakes htask
            · intro key hkey
              exact laws.taken hG hex htakes hkey
        | @release _ _ key hown hreleases hk =>
            obtain ⟨a, ha⟩ := hk r
            rw [ha]
            apply h.release hth hp hown
            intro key' hne hkey'
            exact laws.release hex hreleases hne hkey'
      · cases hspawn
  | @spawn t th j k hth hp => exact h.spawn (laws.body j) hth hp
  | @join t th child hd k v hth hp hchild hjob hst =>
      rcases h.follows t th _ hth hp with hkeeps | ⟨-, i, g, hspawn, -⟩
      · cases hkeeps with
        | join hk => exact h.running hth hp (by simp) (hk (some v)) fun _ hkey => hkey
      · cases hspawn
  | @lost t th child hd k hth hp hchild hjob hst =>
      rcases h.follows t th _ hth hp with hkeeps | ⟨-, i, g, hspawn, -⟩
      · cases hkeeps with
        | join hk => exact h.running hth hp (by simp) (hk none) fun _ hkey => hkey
      · cases hspawn
  | @cancel t th p hth hp hcan =>
      have hnotRet : ∀ v, p ≠ .ret v := by
        rintro v rfl
        rw [laws.ret] at hcan
        cases hcan
      apply h.setStatus_of_less hth
      · intro q hq
        cases hq
      · intro key hk
        rcases hk with ⟨htask, -⟩ | ⟨i, g, hspawn, -⟩
        · rw [hp]
          exact .inl ⟨htask, Status.not_over_running hnotRet⟩
        · cases hspawn
      · intro key hkey
        exact laws.cancel hkey

theorem Reach.inCustody [DecidableEq E.Job] {c0 : Config M} (h : Reach G c0 c)
    (laws : R.Lawful M G held) (h0 : c0.InCustody R held) : c.InCustody R held := by
  induction h with
  | refl => exact h0
  | tail _ hstep hG ih => exact ih.step laws (stepped hstep) hG

end Config

end BlobCache.Conc
