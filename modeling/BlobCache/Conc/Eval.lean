import BlobCache.Conc.Starts

/-!
Calls one at a time. Where nothing else moves, a program is a function of the
state and of what the environment contributes to each of its operations. A job
that it awaits runs while it waits; a job that it only starts is left for later,
and the caller does not see it move.

`Respects` compares two states that no operation tells apart.
-/

namespace BlobCache.Conc

variable {E : Effect} {α β : Type}

namespace Program

/-- The program run by thread `t`, with the jobs it awaits run by `child`. The
result is missing when an operation blocks. -/
def evalWith (M : Machine E) (env : E.Op → M.Choice) (t : Nat)
    (child : E.Job → M.State → Option (E.Val × M.State)) :
    Program E α → M.State → Option (α × M.State)
  | .ret a, s => some (a, s)
  | .op o k, s => (M.exec t o (env o) s).bind fun x => (k x.1).evalWith M env t child x.2
  | .spawn j k, s => (k ⟨t, j⟩).evalWith M env t child s
  | .join h k, s => (child h.job s).bind fun x => (k (some x.1)).evalWith M env t child x.2

/-- A job run to its end, with at most `depth` jobs awaited inside each other. -/
def evalJob (M : Machine E) (env : E.Op → M.Choice) (t : Nat) :
    Nat → E.Job → M.State → Option (E.Val × M.State)
  | 0, j, s => (M.body j).evalWith M env t (fun _ _ => none) s
  | depth + 1, j, s => (M.body j).evalWith M env t (evalJob M env t depth) s

section Rules

variable {M : Machine E} {env : E.Op → M.Choice} {t : Nat}
  {child : E.Job → M.State → Option (E.Val × M.State)} {s : M.State}

theorem evalWith_bind (p : Program E α) (f : α → Program E β) (s : M.State) :
    (p >>= f).evalWith M env t child s =
      (p.evalWith M env t child s).bind fun x => (f x.1).evalWith M env t child x.2 := by
  induction p generalizing s with
  | ret a => rfl
  | op o k ih =>
      change ((M.exec t o (env o) s).bind fun x =>
        (k x.1 >>= f).evalWith M env t child x.2) = _
      simp only [evalWith, ih, Option.bind_assoc]
  | spawn j k ih => exact ih _ s
  | join h k ih =>
      change ((child h.job s).bind fun x =>
        (k (some x.1) >>= f).evalWith M env t child x.2) = _
      simp only [evalWith, ih, Option.bind_assoc]

@[simp] theorem evalWith_pure (a : α) :
    (pure a : Program E α).evalWith M env t child s = some (a, s) := rfl

/-- A program that hands its result on. -/
theorem evalWith_map_iff {p : Program E α} {f : α → β} (hf : Function.Injective f) {a : α}
    {s' : M.State} :
    (p >>= fun a => pure (f a)).evalWith M env t child s = some (f a, s') ↔
      p.evalWith M env t child s = some (a, s') := by
  rw [evalWith_bind]
  simp [Option.bind_eq_some_iff, hf.eq_iff]

theorem evalWith_perform_bind (o : E.Op) (f : E.Resp o → Program E β) :
    (perform o >>= f).evalWith M env t child s =
      (M.exec t o (env o) s).bind fun x => (f x.1).evalWith M env t child x.2 := rfl

theorem evalWith_call_bind (j : E.Job) (f : Option E.Val → Program E β) :
    (call j >>= f).evalWith M env t child s =
      (child j s).bind fun x => (f (some x.1)).evalWith M env t child x.2 := rfl

/-- The program returns, and what it returns satisfies `Q`. -/
def Yields (M : Machine E) (env : E.Op → M.Choice) (t : Nat)
    (child : E.Job → M.State → Option (E.Val × M.State)) (p : Program E α) (s : M.State)
    (Q : α → M.State → Prop) : Prop :=
  ∃ a s', p.evalWith M env t child s = some (a, s') ∧ Q a s'

theorem Yields.pure {a : α} {Q : α → M.State → Prop} (h : Q a s) :
    (pure a : Program E α).Yields M env t child s Q :=
  ⟨a, s, rfl, h⟩

theorem Yields.bind {p : Program E α} {f : α → Program E β} {Q : α → M.State → Prop}
    {R : β → M.State → Prop} (h : p.Yields M env t child s Q)
    (hf : ∀ a s', Q a s' → (f a).Yields M env t child s' R) :
    (p >>= f).Yields M env t child s R := by
  obtain ⟨a, s₁, hp, hQ⟩ := h
  obtain ⟨b, s₂, hrest, hR⟩ := hf a s₁ hQ
  refine ⟨b, s₂, ?_, hR⟩
  rw [evalWith_bind, hp]
  exact hrest

theorem Yields.perform_bind {o : E.Op} {f : E.Resp o → Program E β} {R : β → M.State → Prop}
    {r : E.Resp o} {s' : M.State} (hexec : M.exec t o (env o) s = some (r, s'))
    (hf : (f r).Yields M env t child s' R) : (perform o >>= f).Yields M env t child s R := by
  obtain ⟨b, s₂, hrest, hR⟩ := hf
  refine ⟨b, s₂, ?_, hR⟩
  rw [evalWith_perform_bind, hexec]
  exact hrest

/-- A call of a job that awaits nothing itself. -/
theorem Yields.call_bind {j : E.Job} {f : Option E.Val → Program E β}
    {Q : E.Val → M.State → Prop} {R : β → M.State → Prop}
    (h : (M.body j).Yields M env t (fun _ _ => none) s Q)
    (hf : ∀ v s', Q v s' → (f (some v)).Yields M env t (evalJob M env t 0) s' R) :
    (call j >>= f).Yields M env t (evalJob M env t 0) s R := by
  obtain ⟨v, s₁, hj, hQ⟩ := h
  obtain ⟨b, s₂, hrest, hR⟩ := hf v s₁ hQ
  refine ⟨b, s₂, ?_, hR⟩
  have hchild : evalJob M env t 0 j s = some (v, s₁) := hj
  rw [evalWith_call_bind, hchild]
  exact hrest

theorem Yields.mono {p : Program E α} {Q R : α → M.State → Prop}
    (h : p.Yields M env t child s Q) (hQR : ∀ a s', Q a s' → R a s') :
    p.Yields M env t child s R := by
  obtain ⟨a, s', hp, hQ⟩ := h
  exact ⟨a, s', hp, hQR a s' hQ⟩

/-- There is one result. -/
theorem Yields.result {p : Program E α} {Q : α → M.State → Prop} {a : α} {s' : M.State}
    (h : p.Yields M env t child s Q) (hp : p.evalWith M env t child s = some (a, s')) :
    Q a s' := by
  obtain ⟨b, s₁, hp', hQ⟩ := h
  rw [hp] at hp'
  cases hp'
  exact hQ

theorem returns_of_evalWith {p : Program E α} {s : M.State} {a : α} {s' : M.State}
    (h : p.evalWith M env t child s = some (a, s')) : p.Returns a := by
  induction p generalizing s with
  | ret b =>
      cases h
      rfl
  | op o k ih =>
      obtain ⟨⟨r, s₁⟩, -, hrest⟩ := Option.bind_eq_some_iff.mp h
      exact ⟨r, ih r hrest⟩
  | spawn j k ih => exact ⟨⟨t, j⟩, ih _ h⟩
  | join hd k ih =>
      obtain ⟨⟨v, s₁⟩, -, hrest⟩ := Option.bind_eq_some_iff.mp h
      exact ⟨some v, ih _ hrest⟩

end Rules

section Simulation

variable {M : Machine E} {env : E.Op → M.Choice} {t : Nat} {R : M.State → M.State → Prop}

/-- A function on states that related states are mapped to the same result by, and
to related states again. -/
def Respects (R : M.State → M.State → Prop) (f : M.State → Option (α × M.State)) : Prop :=
  ∀ s s', R s s' → ∀ a u, f s = some (a, u) → ∃ u', f s' = some (a, u') ∧ R u u'

theorem Respects.evalWith {child : E.Job → M.State → Option (E.Val × M.State)}
    (hop : ∀ o, Respects R (M.exec t o (env o))) (hchild : ∀ j, Respects R (child j))
    (p : Program E α) : Respects R (p.evalWith M env t child) := by
  induction p with
  | ret a =>
      intro s s' hR b u h
      cases h
      exact ⟨s', rfl, hR⟩
  | op o k ih =>
      intro s s' hR b u h
      obtain ⟨⟨r, s₁⟩, hexec, hrest⟩ := Option.bind_eq_some_iff.mp h
      obtain ⟨s₁', hexec', hR'⟩ := hop o s s' hR r s₁ hexec
      obtain ⟨u', hu', hRu⟩ := ih r s₁ s₁' hR' b u hrest
      exact ⟨u', Option.bind_eq_some_iff.mpr ⟨(r, s₁'), hexec', hu'⟩, hRu⟩
  | spawn j k ih => exact ih ⟨t, j⟩
  | join hd k ih =>
      intro s s' hR b u h
      obtain ⟨⟨v, s₁⟩, hrun, hrest⟩ := Option.bind_eq_some_iff.mp h
      obtain ⟨s₁', hrun', hR'⟩ := hchild hd.job s s' hR v s₁ hrun
      obtain ⟨u', hu', hRu⟩ := ih (some v) s₁ s₁' hR' b u hrest
      exact ⟨u', Option.bind_eq_some_iff.mpr ⟨(v, s₁'), hrun', hu'⟩, hRu⟩

theorem Respects.evalJob (hop : ∀ o, Respects R (M.exec t o (env o))) (depth : Nat) (j : E.Job) :
    Respects R (evalJob M env t depth j) := by
  induction depth generalizing j with
  | zero =>
      apply Respects.evalWith hop
      intro _ s s' _ a u h
      cases h
  | succ depth ih => exact Respects.evalWith hop ih (M.body j)

end Simulation

end Program

end BlobCache.Conc
