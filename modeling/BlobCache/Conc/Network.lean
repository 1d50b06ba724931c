import BlobCache.Conc.Ends
import Mathlib.Logic.Function.Basic

/-!
Machines side by side. The steps of a system of several machines are steps of one machine
at a time, besides what happens between them. What a machine may assume of its environment
can then follow from what the others have kept to so far: nobody has to assume more about
the others than they guarantee, although each relies on each.
-/

namespace BlobCache.Conc

variable {ι : Type} [DecidableEq ι] {E : Effect} [DecidableEq E.Job] {M : ι → Machine E}

/-- A thread that has returned stays as it is. -/
theorem Config.result_of_step {N : Machine E} {c c' : Config N} {l : Label N} {e : Event N}
    {t : Nat} {v : E.Val} (h : c.step l = some (e, c')) (hdone : c.result t = some v) :
    c'.result t = some v := by
  obtain ⟨th, hth, hst⟩ := done_of_result hdone
  have hend : c.Ended ⟨t, th.job⟩ (some v) := ⟨th, hth, rfl, hst⟩
  obtain ⟨⟨job, parent, status⟩, hth', -, hst'⟩ := (stepped h).ended hend
  cases hst'
  rw [result, hth']

theorem Config.start_spec {N : Machine E} {c c' : Config N} {j : E.Job} {e : Event N}
    (h : c.step (.start j) = some (e, c')) :
    e = .start j ∧ c'.job c.threads.length = some j := by
  simp only [step] at h
  split at h
  · cases h
    rw [job, List.getElem?_concat_length]
    exact ⟨rfl, rfl⟩
  · cases h

/-- One machine takes a step under its condition, and the others stay where they are. -/
theorem Config.reach_update {H : (i : ι) → (M i).State → Event (M i) → Prop}
    {cs0 cs : (i : ι) → Config (M i)} (hreach : ∀ i, Config.Reach (H i) (cs0 i) (cs i)) {i : ι}
    {l : Label (M i)} {e : Event (M i)} {c : Config (M i)} (hstep : (cs i).step l = some (e, c))
    (hkeeps : H i (cs i).state e) (k : ι) :
    Config.Reach (H k) (cs0 k) (Function.update cs i c k) := by
  by_cases hk : k = i
  · subst hk
    rw [Function.update_self]
    exact (hreach k).tail hstep hkeeps
  · rw [Function.update_of_ne hk]
    exact hreach k

end BlobCache.Conc
