import BlobCache.Conc.Program

/-!
One thread at a time. A program that neither starts nor awaits a job can be
judged like a sequential one as long as no other thread moves. Whatever it
returns satisfies the postcondition, and under a further assumption none of its
operations blocks. `Alone.result` and `Alone.completes` carry this over to the
thread pool.
-/

namespace BlobCache.Conc

variable {E : Effect} {M : Machine E}

/-- The step is one of thread `t` itself. -/
def Event.isRun (t : Nat) : Event M → Bool
  | .op u _ _ | .spawn u _ | .join u _ | .finish u => u = t
  | .start _ | .cancel _ => false

/-- The program, run by thread `t` alone from state `s`, returns only what
satisfies `Q`, whatever the environment contributes, and does not block when
`free` holds. -/
def Program.Alone (M : Machine E) (t : Nat) (free : Prop) {α : Type} :
    Program E α → M.State → (α → M.State → Prop) → Prop
  | .ret a, s, Q => Q a s
  | .op o k, s, Q =>
      (free → ∃ c r s', M.exec t o c s = some (r, s')) ∧
        ∀ c r s', M.exec t o c s = some (r, s') → (k r).Alone M t free s' Q
  | .spawn _ _, _, _ => False
  | .join _ _, _, _ => False

namespace Program

variable {t : Nat} {free : Prop} {α β : Type} {s : M.State}

theorem Alone.bind {p : Program E α} {f : α → Program E β} {Q : α → M.State → Prop}
    {R : β → M.State → Prop} (h : p.Alone M t free s Q)
    (hf : ∀ a s', Q a s' → (f a).Alone M t free s' R) : (p >>= f).Alone M t free s R := by
  induction p generalizing s with
  | ret a => exact hf a s h
  | op o k ih => exact ⟨h.1, fun c r s' hex => ih r (h.2 c r s' hex)⟩
  | spawn j k ih => cases h
  | join hd k ih => cases h

theorem Alone.perform_bind {o : E.Op} {f : E.Resp o → Program E β} {R : β → M.State → Prop}
    (henabled : free → ∃ c r s', M.exec t o c s = some (r, s'))
    (hf : ∀ c r s', M.exec t o c s = some (r, s') → (f r).Alone M t free s' R) :
    (perform o >>= f).Alone M t free s R :=
  ⟨henabled, hf⟩

end Program

namespace Config

variable [DecidableEq E.Job] {c c' : Config M} {t : Nat}

/-- Only thread `t` moves. -/
def Solo (t : Nat) (c c' : Config M) : Prop := Reach (fun _ e => e.isRun t = true) c c'

end Config

namespace Program

variable [DecidableEq E.Job] {c c' : Config M} {t : Nat} {free : Prop} {th : Thread E}
  {Q : E.Val → M.State → Prop}

/-- What is known of thread `t` while it runs alone. -/
def AloneAt (free : Prop) (Q : E.Val → M.State → Prop) (t : Nat) (c : Config M) : Prop :=
  ∃ th, c.threads[t]? = some th ∧
    ((∃ p, th.status = .running p ∧ p.Alone M t free c.state Q) ∨
      ∃ v, th.status = .done v ∧ Q v c.state)

theorem AloneAt.step {l : Label M} {e : Event M} (h : AloneAt free Q t c)
    (hstep : c.step l = some (e, c')) (he : e.isRun t = true) : AloneAt free Q t c' := by
  obtain ⟨th', hth', hstatus⟩ := h
  -- the thread that takes the step is `t`, and it was running
  have hrest {u : Nat} {th : Thread E} {p : Program E E.Val} (hth : c.threads[u]? = some th)
      (hp : th.status = .running p) (hu : u = t) : p.Alone M t free c.state Q := by
    subst hu
    rw [hth] at hth'
    cases hth'
    rcases hstatus with ⟨q, hq, halone⟩ | ⟨v, hv, -⟩
    · rw [hp] at hq
      cases hq
      exact halone
    · rw [hp] at hv
      cases hv
  cases Config.stepped hstep with
  | start hext => cases he
  | cancel hth hp hcan => cases he
  | finish hth hp =>
      obtain rfl := of_decide_eq_true he
      exact ⟨_, List.getElem?_set_self (Config.lt_of_thread hth), .inr ⟨_, rfl, hrest hth hp rfl⟩⟩
  | op hth hp hex =>
      obtain rfl := of_decide_eq_true he
      exact ⟨_, List.getElem?_set_self (Config.lt_of_thread hth),
        .inl ⟨_, rfl, (hrest hth hp rfl).2 _ _ _ hex⟩⟩
  | spawn hth hp | join hth hp | lost hth hp => exact (hrest hth hp (of_decide_eq_true he)).elim

theorem AloneAt.solo (h : AloneAt free Q t c) (hrun : Config.Solo t c c') :
    AloneAt free Q t c' := by
  induction hrun with
  | refl => exact h
  | tail _ hstep he ih => exact ih.step hstep he

/-- What a thread returns after it has run alone. -/
theorem Alone.result {p : Program E E.Val} {v : E.Val} (h : p.Alone M t free c.state Q)
    (hth : c.threads[t]? = some th) (hp : th.status = .running p) (hrun : Config.Solo t c c')
    (hdone : c'.result t = some v) : Q v c'.state := by
  have hat : AloneAt free Q t c := ⟨th, hth, .inl ⟨p, hp, h⟩⟩
  obtain ⟨th', hth', hstatus⟩ := hat.solo hrun
  obtain ⟨th'', hth'', -, hv⟩ := Config.thread_of_result (by rw [Config.job, hth']; rfl) hdone
  rw [hth'] at hth''
  cases hth''
  rcases hstatus with ⟨q, hq, -⟩ | ⟨w, hw, hQ⟩
  · rw [hv] at hq
    cases hq
  · rw [hv] at hw
    cases hw
    exact hQ

/-- Left alone, the thread returns. -/
theorem Alone.completes {p : Program E E.Val} (ch : M.Choice) (h : p.Alone M t free c.state Q)
    (hfree : free) (hth : c.threads[t]? = some th) (hp : th.status = .running p) :
    ∃ c' v, Config.Solo t c c' ∧ c'.result t = some v := by
  induction p generalizing c th with
  | ret v =>
      have hstep : c.step (.run t ch) = some (.finish t, c.setStatus t th (.done v)) := by
        simp only [Config.step, hth, hp, Config.advance]
      refine ⟨_, v, .tail .refl hstep (decide_eq_true rfl), ?_⟩
      rw [Config.result, Config.setStatus, List.getElem?_set_self (Config.lt_of_thread hth)]
  | op o k ih =>
      obtain ⟨henabled, hrest⟩ := h
      obtain ⟨ch, r, s', hex⟩ := henabled hfree
      have hlt := Config.lt_of_thread hth
      have hstep := Config.step_of_exec hth hp hex
      obtain ⟨c', v, hsolo, hres⟩ := ih r (hrest ch r s' hex)
        (c := { c.setStatus t th (.running (k r)) with state := s' })
        (List.getElem?_set_self hlt) rfl
      exact ⟨c', v, .trans (.tail .refl hstep (decide_eq_true rfl)) hsolo, hres⟩
  | spawn j k ih => cases h
  | join hd k ih => cases h

end Program

end BlobCache.Conc
