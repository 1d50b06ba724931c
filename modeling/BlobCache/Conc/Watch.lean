import BlobCache.Conc.Program

/-!
One call among other threads. The caller's own operations come one after the other;
before each of them the other threads may have changed the state in any way. What the
call did is recorded: each operation with the state it found, and each job it started.
-/

namespace BlobCache.Conc

variable {E : Effect} {α β : Type}

inductive Act (M : Machine E) where
  | did (o : E.Op) (s : M.State)
  | began (j : E.Job)

namespace Program

/-- What the call does from its `n`-th operation on, up to the first job it waits for.
`others n` is what the other threads do before the `n`-th operation. -/
def watch (M : Machine E) (others : Nat → M.State → M.State) (choice : Nat → M.Choice)
    (t : Nat) : Nat → Program E α → M.State → List (Act M)
  | _, .ret _, _ => []
  | n, .op o k, s =>
      .did o (others n s) ::
        match M.exec t o (choice n) (others n s) with
        | some x => (k x.1).watch M others choice t (n + 1) x.2
        | none => []
  | n, .spawn j k, s => .began j :: (k ⟨t, j⟩).watch M others choice t n s
  | _, .join _ _, _ => []

section Lawful

theorem bind_ret (p : Program E α) : p.bind .ret = p := by
  induction p with
  | ret a => rfl
  | op o k ih => exact congrArg (Program.op o) (funext ih)
  | spawn j k ih => exact congrArg (Program.spawn j) (funext ih)
  | join h k ih => exact congrArg (Program.join h) (funext ih)

theorem bind_bind {γ : Type} (p : Program E α) (f : α → Program E β) (g : β → Program E γ) :
    (p.bind f).bind g = p.bind fun a => (f a).bind g := by
  induction p with
  | ret a => rfl
  | op o k ih => exact congrArg (Program.op o) (funext ih)
  | spawn j k ih => exact congrArg (Program.spawn j) (funext ih)
  | join h k ih => exact congrArg (Program.join h) (funext ih)

end Lawful

instance : LawfulMonad (Program E) :=
  LawfulMonad.mk' _ bind_ret (fun _ _ => rfl) bind_bind

end Program

end BlobCache.Conc
