import Mathlib.Algebra.Order.Ring.Nat
import Mathlib.Data.List.Sort

/-!
Lists sorted by a key, where different elements may have the same key. A stable
sort keeps the order of those, so it forgets the order of the list it started
from only as far as keys tell its elements apart.
-/

namespace BlobCache.Sorted

variable {α κ β : Type} [LinearOrder κ] (key : α → κ)

/-- `sort_by` with a comparison of keys, which is stable. -/
def sortBy (l : List α) : List α := l.insertionSort fun a b => key a ≤ key b

theorem sortBy_perm (l : List α) : (sortBy key l).Perm l := List.perm_insertionSort _ l

theorem mem_sortBy {l : List α} {a : α} : a ∈ sortBy key l ↔ a ∈ l := (sortBy_perm key l).mem_iff

theorem sortBy_pairwise (l : List α) : (sortBy key l).Pairwise fun a b => key a ≤ key b := by
  have htotal : Std.Total fun a b : α => key a ≤ key b := ⟨fun a b => le_total (key a) (key b)⟩
  have htrans : IsTrans α fun a b => key a ≤ key b := ⟨fun _ _ _ => le_trans⟩
  exact List.pairwise_insertionSort _ l

/-- Elements of one key stay in their order. -/
theorem filter_sortBy (k : κ) (l : List α) :
    (sortBy key l).filter (fun a => key a = k) = l.filter fun a => key a = k := by
  symm
  have hkey : ∀ a ∈ l.filter fun a => key a = k, key a = k := by
    intro a ha
    exact of_decide_eq_true (List.mem_filter.mp ha).2
  have hsame : (l.filter fun a => key a = k).Pairwise fun a b => key a ≤ key b := by
    apply List.pairwise_of_forall_mem_list
    intro a ha b hb
    rw [hkey a ha, hkey b hb]
  have hsub := List.sublist_insertionSort hsame List.filter_sublist
  have hfilter := hsub.filter fun a => decide (key a = k)
  rw [List.filter_filter] at hfilter
  simp only [Bool.and_self] at hfilter
  exact hfilter.eq_of_length ((sortBy_perm key l).filter _).length_eq.symm

/-- Two elements of one key at the front of a list end up side by side. -/
theorem sortBy_cons_cons {a b : α} (hkey : key a = key b) (l : List α) :
    sortBy key (a :: b :: l) =
      ((sortBy key l).takeWhile fun x => ¬key b ≤ key x) ++
        a :: b :: (sortBy key l).dropWhile fun x => ¬key b ≤ key x := by
  have hfirst : ∀ x ∈ (sortBy key l).takeWhile fun x => ¬key b ≤ key x,
      decide ¬key b ≤ key x = true := by
    intro x hx
    exact List.all_eq_true.mp List.all_takeWhile x hx
  unfold sortBy at hfirst ⊢
  rw [List.insertionSort_cons_eq_take_drop, List.insertionSort_cons_eq_take_drop]
  simp only [hkey]
  rw [List.takeWhile_append_of_pos hfirst, List.dropWhile_append_of_pos hfirst]
  simp

/-- What is written for the elements of a sorted list does not depend on their
order, when elements of one key may be written in either order. -/
theorem flatMap_congr_of_perm {f : α → List β} {s s' : List α}
    (hs : s.Pairwise fun a b => key a ≤ key b) (hs' : s'.Pairwise fun a b => key a ≤ key b)
    (hperm : s.Perm s')
    (hcomm : ∀ a ∈ s, ∀ b ∈ s, key a = key b → f a ++ f b = f b ++ f a) :
    s.flatMap f = s'.flatMap f := by
  induction s generalizing s' with
  | nil =>
      rw [List.nil_perm.mp hperm]
  | cons a s ih =>
      obtain ⟨u, v, rfl⟩ := List.append_of_mem (hperm.mem_iff.mp List.mem_cons_self)
      have hrest : s.Perm (u ++ v) := List.Perm.cons_inv (hperm.trans List.perm_middle)
      rw [List.pairwise_cons] at hs
      -- what stands before `a` has the key of `a`
      have hkey : ∀ x ∈ u, key x = key a := by
        intro x hx
        apply le_antisymm
        · rw [List.pairwise_append] at hs'
          exact hs'.2.2 x hx a List.mem_cons_self
        · exact hs.1 x (hrest.mem_iff.mpr (List.mem_append_left v hx))
      have hpass : ∀ w : List α, (∀ x ∈ w, x ∈ u) → w.flatMap f ++ f a = f a ++ w.flatMap f := by
        intro w hw
        induction w with
        | nil => simp
        | cons x w ihw =>
            have hx : x ∈ u := hw x List.mem_cons_self
            have hxs : x ∈ a :: s :=
              List.mem_cons_of_mem a (hrest.mem_iff.mpr (List.mem_append_left v hx))
            rw [List.flatMap_cons, List.append_assoc,
              ihw fun y hy => hw y (List.mem_cons_of_mem x hy), ← List.append_assoc,
              hcomm x hxs a List.mem_cons_self (hkey x hx), List.append_assoc]
      have htail : s.flatMap f = (u ++ v).flatMap f := by
        apply ih hs.2 _ hrest
        · intro x hx y hy
          exact hcomm x (List.mem_cons_of_mem a hx) y (List.mem_cons_of_mem a hy)
        · exact hs'.sublist (List.Sublist.append_left (List.sublist_cons_self a v) u)
      rw [List.flatMap_cons, htail, List.flatMap_append, List.flatMap_append, List.flatMap_cons,
        ← List.append_assoc, ← hpass u fun x hx => hx, List.append_assoc]

end BlobCache.Sorted
