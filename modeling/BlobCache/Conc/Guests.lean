import BlobCache.Conc.Extend

/-!
Guests of a machine: new jobs that have no operations of their own and are made of the
programs that are there. Each new job runs in the name of an old one, which anybody may
start, and what is known about the old machine is known about it with its guests.
-/

namespace BlobCache.Conc

variable {E X : Effect} {α : Type} {M : Machine E} {N : Extension M X}

/-- In whose name the new jobs run, and what their values are worth. -/
structure Protocol.Guests (P : Protocol M) (X : Effect) where
  host : X.Job → E.Job
  post : X.Job → X.Val → P.Local → Prop
  external : ∀ j, M.external (host j) = true

namespace Protocol.Guests

variable {P : Protocol M} (Q : P.Guests X)

/-- The old job in whose name a job runs. -/
def name : (E.extend X).Job → E.Job
  | .inl j => j
  | .inr j => Q.host j

/-- A guest that is started or awaited leaves no trace in the thread that does so. -/
def extension : P.Extension X where
  init j := P.init (Q.host j)
  jobOk j := P.jobOk (Q.host j)
  pre _ _ := False
  allows _ _ _ := True
  next l _ _ := l
  spawnPre _ _ := True
  post := Q.post

end Protocol.Guests

/-- The protocol with the guests. -/
def Protocol.withGuests (P : Protocol M) (Q : P.Guests X) (N : Conc.Extension M X) :
    Protocol (M.extend N) :=
  P.extend Q.extension N

/-! ## Views -/

section Views

variable {P : Protocol M} {Q : P.Guests X}

/-- A guest has no parent that its host would know of. -/
def View.hosted (v : View (P.withGuests Q N)) : View P where
  job := Q.name v.job
  parent :=
    match v.job with
    | .inl _ => v.parent
    | .inr _ => none
  loc := v.loc

/-- What the old machine sees of the threads. -/
def Views.hosted (ws : Views (P.withGuests Q N)) : Views P := fun t => (ws t).map View.hosted

theorem Views.hosted_eq {ws : Views (P.withGuests Q N)} {t : Nat} {v : View (P.withGuests Q N)}
    (hv : ws t = some v) : ws.hosted t = some v.hosted :=
  congrArg (Option.map View.hosted) hv

theorem Views.hosted_none {ws : Views (P.withGuests Q N)} {t : Nat} (hv : ws t = none) :
    ws.hosted t = none :=
  congrArg (Option.map View.hosted) hv

theorem Views.hosted_update (ws : Views (P.withGuests Q N)) (t : Nat)
    (v : View (P.withGuests Q N)) :
    Views.hosted (Function.update ws t (some v)) =
      Function.update ws.hosted t (some v.hosted) := by
  funext u
  by_cases hu : u = t
  · subst hu
    rw [Function.update_self, Views.hosted, Function.update_self]
    rfl
  · rw [Function.update_of_ne hu, Views.hosted, Function.update_of_ne hu]
    rfl

end Views

/-! ## Invariants -/

/-- What the old machine sees of a step. -/
def Event.hosted {P : Protocol M} (Q : P.Guests X) : Event (M.extend N) → Event M
  | .start j => .start (Q.name j)
  | .op t (.inl o) c => .op t o c
  | .spawn t (.inl j) => .spawn t j
  | .join t ⟨u, .inl j⟩ => .join t ⟨u, j⟩
  | .op t (.inr _) _ | .spawn t (.inr _) | .join t ⟨_, .inr _⟩ | .finish t => .finish t
  | .cancel t => .cancel t

/-- An invariant of the old machine is one of the machine with its guests, if it survives
the loss of any thread. -/
theorem Sound.withGuests {P : Protocol M} {Q : P.Guests X}
    {G : M.State → Event M → Prop} {I : M.State → Views P → Prop} (hS : Sound P G I)
    (hbody : ∀ j, P.jobOk (Q.host j) →
      (N.body j).Sat (P.withGuests Q N) (P.init (Q.host j)) (Q.post j))
    (hopen : ∀ s j, P.jobOk (Q.host j) → G s (.start (Q.host j)))
    (hlost : ∀ {s ws t v}, I s ws → ws t = some v →
      I (M.onCancel t s) (Function.update ws t (some v.dead))) :
    Sound (P.withGuests Q N) (fun s e => G s (e.hosted Q)) fun s ws => I s ws.hosted where
  body j hok := by
    cases j with
    | inl j => exact (hS.body j hok).body_inl
    | inr j => exact Program.Sat.body_inr (hbody j hok)
  start {s ws t j} hI ht hext hg := by
    rw [Views.hosted_update]
    cases j with
    | inl j => exact hS.start hI (Views.hosted_none ht) hext hg
    | inr j => exact hS.start hI (Views.hosted_none ht) (Q.external j) hg
  op {s ws t v o c r s'} hI hv hpre hg hex := by
    cases o with
    | inl o =>
        obtain ⟨hallows, hI'⟩ := hS.op hI (Views.hosted_eq hv) hpre hg hex
        refine ⟨hallows, ?_⟩
        rw [Views.hosted_update]
        exact hI'
    | inr o => exact hpre.elim
  spawn {s ws t v u j} hI hv hu hok hpre hg := by
    rw [Views.hosted_update, Views.hosted_update]
    cases j with
    | inl j => exact hS.spawn hI (Views.hosted_eq hv) (Views.hosted_none hu) hok hpre hg
    | inr j =>
        have hsame : Function.update ws.hosted t (some (v.spawned ⟨u, .inr j⟩).hosted) =
            ws.hosted := Function.update_eq_self_iff.mpr (Views.hosted_eq hv).symm
        rw [hsame]
        exact (hS.start hI (Views.hosted_none hu) (Q.external j) (hopen s j hok)).2
  join {s ws t v h w x} hI hv hw hjob hpost := by
    rw [Views.hosted_update]
    obtain ⟨u, j⟩ := h
    cases j with
    | inl j =>
        cases x with
        | inl x =>
            have hchild : ws.hosted u = some w.hosted := Views.hosted_eq hw
            exact hS.join (h := ⟨u, j⟩) hI (Views.hosted_eq hv) hchild
              (congrArg Q.name hjob) hpost
        | inr x => cases hpost
    | inr j =>
        rw [Function.update_eq_self_iff.mpr (Views.hosted_eq hv).symm]
        exact hI
  lost {s ws t v h w l} hI hv hw hjob hdead := by
    rw [Views.hosted_update]
    obtain ⟨u, j⟩ := h
    cases j with
    | inl j =>
        have hchild : ws.hosted u = some w.hosted := Views.hosted_eq hw
        exact hS.lost (h := ⟨u, j⟩) hI (Views.hosted_eq hv) hchild (congrArg Q.name hjob) hdead
    | inr j =>
        rw [Function.update_eq_self_iff.mpr (Views.hosted_eq hv).symm]
        exact hI
  cancel {s ws t v p} hI hv _ _ := by
    rw [Views.hosted_update]
    exact hlost hI (Views.hosted_eq hv)

end BlobCache.Conc
