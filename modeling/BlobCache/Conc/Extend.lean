import BlobCache.Conc.Protocol

/-!
Machines on top of machines. A family of programs is extended by operations,
jobs and values of its own, over the same state: the programs that were there
run unchanged beside the new ones, which may start and await them. The new jobs
are started from outside only.

A protocol is extended in the same way, and a program that keeps to the old
protocol keeps to the new one.
-/

namespace BlobCache.Conc

/-- Two families of programs side by side. -/
def Effect.extend (E X : Effect) : Effect where
  Op := E.Op ⊕ X.Op
  Resp := Sum.elim E.Resp X.Resp
  Job := E.Job ⊕ X.Job
  Val := E.Val ⊕ X.Val

variable {E X : Effect} {α : Type}

instance [DecidableEq E.Job] [DecidableEq X.Job] : DecidableEq (E.extend X).Job :=
  inferInstanceAs (DecidableEq (E.Job ⊕ X.Job))

/-- A program of the first family as one of both. -/
def Program.lift (X : Effect) : Program E α → Program (E.extend X) α
  | .ret a => .ret a
  | .op o k => .op (.inl o) fun r => (k r).lift X
  | .spawn j k => .spawn (.inl j) fun h => (k ⟨h.tid, j⟩).lift X
  | .join h k => .join ⟨h.tid, .inl h.job⟩ fun v => (k (v.bind Sum.getLeft?)).lift X

/-- What a machine is extended by. Which threads can be lost is decided anew
for all of them. -/
structure Extension (M : Machine E) (X : Effect) where
  exec : Nat → (o : X.Op) → M.Choice → M.State → Option (X.Resp o × M.State)
  body : X.Job → Program (E.extend X) X.Val
  cancellable : (E.extend X).Job → Program (E.extend X) (E.extend X).Val → Bool

def Machine.extend (M : Machine E) (N : Extension M X) : Machine (E.extend X) where
  State := M.State
  Choice := M.Choice
  exec t o c s :=
    match o with
    | .inl o => M.exec t o c s
    | .inr o => N.exec t o c s
  body j :=
    match j with
    | .inl j => (M.body j).lift X >>= fun v => pure (.inl v)
    | .inr j => N.body j >>= fun v => pure (.inr v)
  external := Sum.elim M.external fun _ => true
  cancellable := N.cancellable
  onCancel := M.onCancel

variable {M : Machine E} {N : Extension M X}

/-- What a protocol is extended by. -/
structure Protocol.Extension (P : Protocol M) (X : Effect) where
  init : X.Job → P.Local
  jobOk : X.Job → Prop := fun _ => True
  pre : P.Local → X.Op → Prop := fun _ _ => True
  allows : P.Local → (o : X.Op) → X.Resp o → Prop
  next : P.Local → (o : X.Op) → X.Resp o → P.Local
  spawnPre : P.Local → X.Job → Prop := fun _ _ => False
  post : X.Job → X.Val → P.Local → Prop

def Protocol.extend (P : Protocol M) (Q : P.Extension X) (N : Conc.Extension M X) :
    Protocol (M.extend N) where
  Local := P.Local
  init := Sum.elim P.init Q.init
  jobOk := Sum.elim P.jobOk Q.jobOk
  pre l := Sum.elim (P.pre l) (Q.pre l)
  allows l o r :=
    match o, r with
    | .inl o, r => P.allows l o r
    | .inr o, r => Q.allows l o r
  next l o r :=
    match o, r with
    | .inl o, r => P.next l o r
    | .inr o, r => Q.next l o r
  spawnPre l := Sum.elim (P.spawnPre l) (Q.spawnPre l)
  spawned l h :=
    match h with
    | ⟨t, .inl j⟩ => P.spawned l ⟨t, j⟩
    | ⟨_, .inr _⟩ => l
  joined l h r :=
    match h with
    | ⟨t, .inl j⟩ => P.joined l ⟨t, j⟩ (r.bind Sum.getLeft?)
    | ⟨_, .inr _⟩ => l
  post j v l :=
    match j, v with
    | .inl j, .inl v => P.post j v l
    | .inr j, .inr v => Q.post j v l
    | _, _ => False
  dead := P.dead

namespace Program

variable {P : Protocol M} {Q : P.Extension X} {l : P.Local}

theorem Sat.lift {p : Program E α} {R : α → P.Local → Prop} (h : p.Sat P l R) :
    (p.lift X).Sat (P.extend Q N) l R := by
  induction p generalizing l with
  | ret a => exact h
  | op o k ih => exact ⟨h.1, fun r hr => ih r (h.2 r hr)⟩
  | spawn j k ih => exact ⟨h.1, h.2.1, fun t => ih ⟨t, j⟩ (h.2.2 t)⟩
  | join hd k ih =>
      intro r hr
      apply ih
      apply h
      intro v hv
      cases r with
      | none => cases hv
      | some x =>
          cases x with
          | inl w =>
              cases hv
              exact hr (.inl v) rfl
          | inr w => cases hv

/-- The jobs of the first family still return what they promise. -/
theorem Sat.body_inl {j : E.Job} (h : (M.body j).Sat P (P.init j) (P.post j)) :
    ((M.extend N).body (.inl j)).Sat (P.extend Q N) (P.init j)
      ((P.extend Q N).post (.inl j)) :=
  Sat.bind h.lift fun _ _ hpost => hpost

theorem Sat.body_inr {j : X.Job} (h : (N.body j).Sat (P.extend Q N) (Q.init j) (Q.post j)) :
    ((M.extend N).body (.inr j)).Sat (P.extend Q N) (Q.init j)
      ((P.extend Q N).post (.inr j)) :=
  Sat.bind h fun _ _ hpost => hpost

end Program

end BlobCache.Conc
