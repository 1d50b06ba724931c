import Mathlib.Algebra.Order.Ring.Nat
import Mathlib.Data.Set.Function
import Mathlib.Order.MinMax

/-!
Folding a list down to its best element. The current best is replaced only by
a strictly better one, so the order of the list decides between elements of the
same rank and nothing else.
-/

namespace BlobCache

variable {α β : Type} [LinearOrder β] (rank : α → β)

def better (a b : α) : α := if rank a < rank b then b else a

/-- The best of `a` and the elements of the list. -/
def best (a : α) (l : List α) : α := l.foldl (better rank) a

/-- The best of a list, starting from an element that may be missing. -/
def best? (o : Option α) (l : List α) : Option α :=
  l.foldl (fun o a => some (o.elim a fun b => better rank b a)) o

theorem rank_better (a b : α) : rank (better rank a b) = max (rank a) (rank b) := by
  unfold better
  split
  · rename_i hlt
    rw [max_eq_right hlt.le]
  · rename_i hge
    rw [max_eq_left (not_lt.mp hge)]

theorem better_eq (a b : α) : better rank a b = a ∨ better rank a b = b := by
  unfold better
  split
  · exact .inr rfl
  · exact .inl rfl

theorem best_mem (a : α) (l : List α) : best rank a l ∈ a :: l := by
  induction l generalizing a with
  | nil => exact List.mem_singleton_self a
  | cons b l ih =>
      have hmem := ih (better rank a b)
      rcases List.mem_cons.mp hmem with heq | hin
      · change best rank (better rank a b) l ∈ a :: b :: l
        rw [heq]
        rcases better_eq rank a b with h | h <;> simp [h]
      · exact List.mem_cons_of_mem _ (List.mem_cons_of_mem _ hin)

theorem le_best {a x : α} {l : List α} (hx : x ∈ a :: l) : rank x ≤ rank (best rank a l) := by
  induction l generalizing a x with
  | nil => rw [List.mem_singleton.mp hx]; rfl
  | cons b l ih =>
      have hfirst : rank (better rank a b) ≤ rank (best rank (better rank a b) l) :=
        ih List.mem_cons_self
      rw [rank_better rank] at hfirst
      change rank x ≤ rank (best rank (better rank a b) l)
      rcases List.mem_cons.mp hx with rfl | hx
      · exact (le_max_left _ _).trans hfirst
      · rcases List.mem_cons.mp hx with rfl | hx
        · exact (le_max_right _ _).trans hfirst
        · exact ih (List.mem_cons_of_mem _ hx)

/-- Where ranks are distinct, the best element is the one of the highest rank,
whatever the order and the repetitions of the list. -/
theorem best_eq_of_max {s : Set α} (hinj : Set.InjOn rank s) {a m : α} {l : List α}
    (hs : ∀ x ∈ a :: l, x ∈ s) (hm : m ∈ a :: l) (hmax : ∀ x ∈ s, rank x ≤ rank m) :
    best rank a l = m := by
  have hmem := hs _ (best_mem rank a l)
  exact hinj hmem (hs m hm) (le_antisymm (hmax _ hmem) (le_best rank hm))

theorem best?_mem {o : Option α} {l : List α} {a : α} (h : best? rank o l = some a) :
    o = some a ∨ a ∈ l := by
  induction l generalizing o with
  | nil => exact .inl h
  | cons b l ih =>
      rcases ih h with heq | hmem
      · cases o with
        | none => exact .inr (List.mem_cons.mpr (.inl (Option.some.inj heq).symm))
        | some c =>
            rcases better_eq rank c b with hc | hb
            · exact .inl (hc ▸ heq)
            · exact .inr (List.mem_cons.mpr (.inl ((Option.some.inj heq).symm.trans hb)))
      · exact .inr (List.mem_cons_of_mem _ hmem)

/-- The last element wins over everything that ranks below it. -/
theorem best?_concat {o : Option α} {l : List α} {a : α} (ho : ∀ b, o = some b → rank b < rank a)
    (hl : ∀ b ∈ l, rank b < rank a) : best? rank o (l ++ [a]) = some a := by
  unfold best?
  rw [List.foldl_append]
  change some ((best? rank o l).elim a fun b => better rank b a) = some a
  cases hbest : best? rank o l with
  | none => rfl
  | some b =>
      have hlt : rank b < rank a := by
        rcases best?_mem rank hbest with heq | hmem
        · exact ho b heq
        · exact hl b hmem
      exact congrArg some (if_pos hlt)

/-- The maximum of a list depends on its elements only. -/
theorem max?_congr {l l' : List β} (h : ∀ x, x ∈ l ↔ x ∈ l') : l.max? = l'.max? := by
  cases hl : l.max? with
  | none =>
      rw [List.max?_eq_none_iff] at hl
      subst hl
      have hnil : l' = [] := List.eq_nil_iff_forall_not_mem.mpr fun x hx =>
        List.not_mem_nil ((h x).mpr hx)
      rw [hnil]
      rfl
  | some a =>
      obtain ⟨hmem, hle⟩ := List.max?_eq_some_iff.mp hl
      symm
      exact List.max?_eq_some_iff.mpr ⟨(h a).mp hmem, fun b hb => hle b ((h b).mpr hb)⟩

/-- Over an element that may be missing, the best has the highest rank of what
there was and what came. -/
theorem best?_rank (o : Option α) (l : List α) :
    (best? rank o l).map rank = ((o.toList ++ l).map rank).max? := by
  induction l generalizing o with
  | nil => cases o <;> simp [best?]
  | cons b l ih =>
      change (best? rank (some (o.elim b fun a => better rank a b)) l).map rank = _
      rw [ih]
      cases o with
      | none => simp
      | some a =>
          simp only [Option.elim, Option.toList, List.cons_append, List.nil_append,
            List.map_cons, List.max?_cons', List.foldl_cons, rank_better]

end BlobCache
