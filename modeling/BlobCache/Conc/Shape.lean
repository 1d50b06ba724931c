import BlobCache.Conc.Program

/-!
What a program looks like. A shape is a condition on each operation together
with what follows it, where only certain responses are reckoned with, and on the
jobs that are started. Unlike a protocol it has no local state: it is a property
of the text of a program, and every thread keeps it for as long as it runs.
-/

namespace BlobCache.Conc

variable {E : Effect} {M : Machine E}

structure Shape (E : Effect) where
  op : ∀ {α : Type} (o : E.Op), (E.Resp o → Program E α) → Prop
  resp : (o : E.Op) → E.Resp o → Prop
  job : E.Job → Prop
  bind : ∀ {α β : Type} {o : E.Op} {k : E.Resp o → Program E α} (f : α → Program E β),
    op o k → op o fun r => (k r).bind f

namespace Program

variable {S : Shape E} {α β : Type}

def Every (S : Shape E) : Program E α → Prop
  | .ret _ => True
  | .op o k => S.op o k ∧ ∀ r, S.resp o r → (k r).Every S
  | .spawn j k => S.job j ∧ ∀ h, (k h).Every S
  | .join _ k => ∀ v, (k v).Every S

theorem Every.bind {p : Program E α} {f : α → Program E β} (h : p.Every S)
    (hf : ∀ a, (f a).Every S) : (p >>= f).Every S := by
  induction p with
  | ret a => exact hf a
  | op o k ih => exact ⟨S.bind f h.1, fun r hr => ih r (h.2 r hr)⟩
  | spawn j k ih => exact ⟨h.1, fun hd => ih hd (h.2 hd)⟩
  | join hd k ih => exact fun v => ih v (h v)

theorem Every.pure (a : α) : (Pure.pure a : Program E α).Every S := trivial

theorem Every.perform {o : E.Op} (h : S.op o (.ret : E.Resp o → Program E (E.Resp o))) :
    (perform o).Every S :=
  ⟨h, fun _ _ => trivial⟩

theorem Every.perform_bind {o : E.Op} {f : E.Resp o → Program E β} (h : S.op o f)
    (hf : ∀ r, S.resp o r → (f r).Every S) : (Program.perform o >>= f).Every S :=
  ⟨h, hf⟩

end Program

namespace Config

/-- Every running thread of a job that the shape admits has the shape. -/
def Shaped (S : Shape E) (c : Config M) : Prop :=
  ∀ (t : Nat) (th : Thread E) (p : Program E E.Val), c.threads[t]? = some th → S.job th.job →
    th.status = .running p → p.Every S

/-- The shape admits every job. -/
def Admitted (S : Shape E) (c : Config M) : Prop :=
  ∀ (t : Nat) (th : Thread E), c.threads[t]? = some th → S.job th.job

theorem Shaped.setStatus {S : Shape E} {c : Config M} (h : c.Shaped S) {t : Nat} {th : Thread E}
    (hth : c.threads[t]? = some th) {st : Status E}
    (hst : S.job th.job → ∀ p, st = .running p → p.Every S) : (c.setStatus t th st).Shaped S := by
  intro u thu p hu hjob hp
  rcases thread_setStatus hth hu with ⟨-, hold⟩ | ⟨-, rfl⟩
  · exact h u thu p hold hjob hp
  · exact hst hjob p hp

theorem Shaped.append {S : Shape E} {c : Config M} (h : c.Shaped S) {j : E.Job}
    {parent : Option Nat} (hj : S.job j → (M.body j).Every S) :
    Shaped S { c with threads := c.threads ++ [⟨j, parent, .running (M.body j)⟩] } := by
  intro u thu p hu hjob hp
  rcases thread_append hu with hold | ⟨-, rfl⟩
  · exact h u thu p hold hjob hp
  · cases hp
    exact hj hjob

/-- Threads keep the shape of the body they started with. -/
theorem Shaped.step {S : Shape E} {c c' : Config M} {e : Event M}
    (hbody : ∀ j, S.job j → (M.body j).Every S)
    (hresp : ∀ t o ch r s, e = .op t o ch → M.exec t o ch c.state = some (r, s) → S.resp o r)
    (h : c.Shaped S) (hstep : c.Stepped e c') : c'.Shaped S := by
  cases hstep with
  | start hext => exact h.append (hbody _)
  | finish hth hp | cancel hth hp hcan => exact h.setStatus hth (fun _ _ heq => by cases heq)
  | op hth hp hex =>
      refine h.setStatus hth ?_
      rintro hjob p ⟨⟩
      exact (h _ _ _ hth hjob hp).2 _ (hresp _ _ _ _ _ rfl hex)
  | spawn hth hp =>
      refine Shaped.append (h.setStatus hth ?_) (hbody _)
      rintro hjob p ⟨⟩
      exact (h _ _ _ hth hjob hp).2 _
  | join hth hp hchild hst | lost hth hp hchild hst =>
      refine h.setStatus hth ?_
      rintro hjob p ⟨⟩
      exact h _ _ _ hth hjob hp _

/-- Threads that have the shape start only jobs that it admits. -/
theorem Admitted.step {S : Shape E} {c c' : Config M} {e : Event M} (h : c.Admitted S)
    (hshaped : c.Shaped S) (hstart : ∀ j, e = .start j → S.job j) (hstep : c.Stepped e c') :
    c'.Admitted S := by
  intro u thu hu
  rcases hstep.thread_origin hu with ⟨th, hth, hjob, -⟩ | ⟨he, -⟩ | ⟨t, th, k, -, -, hth, hp⟩
  · rw [← hjob]
    exact h u th hth
  · exact hstart _ he
  · exact (hshaped t th _ hth (h t th hth) hp).1

/-- What an admitted job starts is admitted. -/
def Inherited (S : Shape E) (c : Config M) : Prop :=
  ∀ (u t : Nat) (thu : Thread E), c.threads[u]? = some thu → thu.parent = some t →
    ∃ j, c.job t = some j ∧ (S.job j → S.job thu.job)

/-- Thread `u` was started by thread `t`, by one that `t` started, and so on, or
is `t`. -/
inductive Descends (c : Config M) (t : Nat) : Nat → Prop where
  | self : Descends c t t
  | child {u v : Nat} {thv : Thread E} : Descends c t u → c.threads[v]? = some thv →
      thv.parent = some u → Descends c t v

theorem Inherited.job_of_descends {S : Shape E} {c : Config M} (h : c.Inherited S) {t u : Nat}
    (hdesc : c.Descends t u) (ht : ∀ j, c.job t = some j → S.job j) :
    ∀ j, c.job u = some j → S.job j := by
  induction hdesc with
  | self => exact ht
  | @child u v thv _ hv hparent ih =>
      intro j hj
      obtain ⟨i, hi, himp⟩ := h v u thv hv hparent
      have hsame : thv.job = j := by
        rw [Config.job, hv] at hj
        exact Option.some.inj hj
      rw [← hsame]
      exact himp (ih i hi)

theorem Shaped.init (S : Shape E) (s : M.State) : (Config.init s : Config M).Shaped S := by
  intro t th p hth
  simp [Config.init] at hth

theorem Admitted.init (S : Shape E) (s : M.State) : (Config.init s : Config M).Admitted S := by
  intro t th hth
  simp [Config.init] at hth

theorem Inherited.init (S : Shape E) (s : M.State) : (Config.init s : Config M).Inherited S := by
  intro u t thu hu
  simp [Config.init] at hu

variable [DecidableEq E.Job] {S : Shape E} {G : M.State → Event M → Prop} {c0 c : Config M}

theorem Reach.shaped (hbody : ∀ j, S.job j → (M.body j).Every S)
    (hresp : ∀ s t o ch r s', G s (.op t o ch) → M.exec t o ch s = some (r, s') → S.resp o r)
    (h0 : c0.Shaped S) (h : Reach G c0 c) : c.Shaped S := by
  induction h with
  | refl => exact h0
  | tail _ hstep hg ih =>
      refine ih.step hbody ?_ (stepped hstep)
      rintro t o ch r s rfl hex
      exact hresp _ t o ch r s hg hex

theorem Reach.admitted (hbody : ∀ j, S.job j → (M.body j).Every S)
    (hstart : ∀ s j, G s (.start j) → S.job j)
    (hresp : ∀ s t o ch r s', G s (.op t o ch) → M.exec t o ch s = some (r, s') → S.resp o r)
    (hshaped : c0.Shaped S) (hadmitted : c0.Admitted S) (h : Reach G c0 c) : c.Admitted S := by
  induction h with
  | refl => exact hadmitted
  | tail hreach hstep hg ih =>
      refine ih.step (hreach.shaped hbody hresp hshaped) ?_ (stepped hstep)
      rintro j rfl
      exact hstart _ j hg

theorem Reach.inherited (hbody : ∀ j, S.job j → (M.body j).Every S)
    (hresp : ∀ s t o ch r s', G s (.op t o ch) → M.exec t o ch s = some (r, s') → S.resp o r)
    (hshaped : c0.Shaped S) (hinherited : c0.Inherited S) (h : Reach G c0 c) :
    c.Inherited S := by
  induction h with
  | refl => exact hinherited
  | @tail c c' l e hreach hstep hg ih =>
      intro u t thu hu hparent
      rcases (stepped hstep).thread_origin hu with
        ⟨th, hth, hjob, hsame⟩ | ⟨-, hnone⟩ | ⟨v, th, k, -, hsome, hth, hp⟩
      · obtain ⟨j, hj, himp⟩ := ih u t th hth (hsame.trans hparent)
        exact ⟨j, job_of_step hstep hj, fun hadmitted => hjob ▸ himp hadmitted⟩
      · rw [hnone] at hparent
        cases hparent
      · rw [hsome] at hparent
        obtain rfl := Option.some.inj hparent
        have hv : c.job v = some th.job := by rw [Config.job, hth]; rfl
        refine ⟨th.job, job_of_step hstep hv, fun hadmitted => ?_⟩
        exact (hreach.shaped hbody hresp hshaped v th _ hth hadmitted hp).1

end Config

end BlobCache.Conc
