import BlobCache.Data.Checked

/-!
Loops that have no bound of their own. A turn goes on with a new state or ends with a
result, and a run that is given too few turns fails. A loop ends when something gets
smaller with each turn that goes on; what an invariant says of the state then holds of
the result.
-/

namespace BlobCache.Loop

open Checked

variable {σ β : Type}

inductive Turn (σ β : Type) where
  | again (s : σ)
  | done (b : β)

/-- The loop, for at most `turns` turns. -/
def run (body : σ → Except Fault (Turn σ β)) : Nat → σ → Except Fault β
  | 0, _ => throw .unbounded
  | turns + 1, s => do
      match ← body s with
      | .again s' => run body turns s'
      | .done b => return b

section Histories

variable {α : Type}

/-- Every entry meets a condition on those before it. -/
def Each (p : List α → α → Prop) (l : List α) : Prop := ∀ a x b, l = a ++ x :: b → p a x

theorem Each.nil {p : List α → α → Prop} : Each p [] := by
  intro a x b h
  cases a <;> cases h

theorem Each.concat {p : List α → α → Prop} {l : List α} (h : Each p l) {x : α} (hx : p l x) :
    Each p (l ++ [x]) := by
  intro a y b hsplit
  rcases List.eq_nil_or_concat b with rfl | ⟨b, z, rfl⟩
  · obtain ⟨rfl, hlast⟩ := List.append_inj' hsplit rfl
    cases hlast
    exact hx
  · rw [List.concat_eq_append, ← List.cons_append, ← List.append_assoc] at hsplit
    exact h a y b (List.append_inj' hsplit rfl).1

end Histories

end BlobCache.Loop
