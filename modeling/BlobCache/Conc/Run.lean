import Mathlib.Algebra.Order.Ring.Nat
import Mathlib.Logic.Basic

/-!
Runs of a system that moves by labelled steps. A condition on the state and the
label says which steps a run may take; an invariant of those steps holds in
every state of a run.
-/

namespace BlobCache.Conc

variable {S L : Type} {step : S → L → Option S}

/-- The states that steps under the condition `G` lead to. -/
inductive Run (step : S → L → Option S) (G : S → L → Prop) (s0 : S) : S → Prop where
  | refl : Run step G s0 s0
  | tail {s s' : S} {l : L} : Run step G s0 s → step s l = some s' → G s l → Run step G s0 s'

theorem Run.mono {G H : S → L → Prop} {s0 s : S} (hGH : ∀ s l, G s l → H s l)
    (h : Run step G s0 s) : Run step H s0 s := by
  induction h with
  | refl => exact .refl
  | tail _ hstep hg ih => exact ih.tail hstep (hGH _ _ hg)

theorem Run.trans {G : S → L → Prop} {s0 s s' : S} (h : Run step G s0 s)
    (h' : Run step G s s') : Run step G s0 s' := by
  induction h' with
  | refl => exact h
  | tail _ hstep hg ih => exact ih.tail hstep hg

theorem Run.inv {G : S → L → Prop} {I : S → Prop} {s0 s : S}
    (hstep : ∀ s l s', I s → G s l → step s l = some s' → I s') (h0 : I s0)
    (h : Run step G s0 s) : I s := by
  induction h with
  | refl => exact h0
  | tail _ hs hg ih => exact hstep _ _ _ ih hg hs

/-- The state after the labels one by one, if each is enabled and passes. -/
def replay (step : S → L → Option S) (gate : S → L → Bool) : S → List L → Option S
  | s, [] => some s
  | s, l :: ls => if gate s l then (step s l).bind fun s' => replay step gate s' ls else none

theorem replay_run {gate : S → L → Bool} {ls : List L} {s s' : S}
    (h : replay step gate s ls = some s') : Run step (fun s l => gate s l = true) s s' := by
  induction ls generalizing s with
  | nil =>
      cases h
      exact .refl
  | cons l ls ih =>
      simp only [replay] at h
      split at h
      · rename_i hgate
        obtain ⟨next, hnext, hrest⟩ := Option.bind_eq_some_iff.mp h
        exact Run.trans (.tail .refl hnext hgate) (ih hrest)
      · cases h

/-- A run along the labels to a state with the property `p`. -/
theorem run_of_replay (step : S → L → Option S) (gate : S → L → Bool) {G : S → L → Prop}
    (hgate : ∀ s l, gate s l = true → G s l) (s : S) (ls : List L) (p : S → Bool)
    (h : (replay step gate s ls).any p = true) : ∃ s', Run step G s s' ∧ p s' = true := by
  obtain ⟨s', hs', hp⟩ := Option.any_eq_true _ _ |>.mp h
  exact ⟨s', (replay_run hs').mono hgate, hp⟩

theorem run_of_labels (step : S → L → Option S) (s : S) (ls : List L) (p : S → Bool)
    (h : (replay step (fun _ _ => true) s ls).any p = true) :
    ∃ s', Run step (fun _ _ => True) s s' ∧ p s' = true :=
  run_of_replay step _ (fun _ _ _ => trivial) s ls p h

end BlobCache.Conc
