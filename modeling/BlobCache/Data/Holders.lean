import BlobCache.Data.FinMap

/-!
Things that are handed out. `Counted` is about things that several holders share:
each has a counter, which is the number of its holders, and a value that does not
change while there is a holder. `Dealt` is about numbered places that one holder at a
time has: each place is free or taken, once.

The holders are a finite map, from whoever holds to what is held.
-/

namespace BlobCache.Holders

variable {H K C V : Type}

/-! ## Shared things -/

section Shared

variable [DecidableEq H] [DecidableEq K]

/-- The number of holders of `k`. -/
def sharing (holders : FinMap H (K × C)) (k : K) : Nat :=
  FinMap.total (fun x => if x.1 = k then 1 else 0) holders

structure Counted (count : K → Nat) (value : K → Option C) (holders : FinMap H (K × C)) :
    Prop where
  count : ∀ k, count k = sharing holders k
  value : ∀ h x, holders.get? h = some x → value x.1 = some x.2

namespace Counted

variable {count count' : K → Nat} {value value' : K → Option C} {holders : FinMap H (K × C)}
  {h : H} {k : K} {c : C}

theorem empty (hcount : ∀ k, count k = 0) : Counted count value (∅ : FinMap H (K × C)) :=
  ⟨hcount, by simp⟩

theorem sharing_pos {x : K × C} (hx : holders.get? h = some x) : sharing holders x.1 ≠ 0 := by
  have hle := FinMap.le_total (fun y => if y.1 = x.1 then 1 else 0) hx
  rw [if_pos rfl] at hle
  unfold sharing
  omega

theorem pos (hc : Counted count value holders) {x : K × C} (hx : holders.get? h = some x) :
    count x.1 ≠ 0 := by
  rw [hc.count]
  exact sharing_pos hx

/-- The counters stay, and so does the value of what is held. -/
theorem keep (hc : Counted count value holders) (hcount : ∀ k, count' k = count k)
    (hvalue : ∀ k, count k ≠ 0 → value' k = value k) : Counted count' value' holders := by
  constructor
  · intro k
    rw [hcount, hc.count]
  · intro h x hx
    rw [hvalue x.1 (hc.pos hx)]
    exact hc.value h x hx

/-- One holder more. -/
theorem checkout (hc : Counted count value holders) (hfree : holders.get? h = none)
    (hcount : ∀ k', count' k' = count k' + if k' = k then 1 else 0)
    (hvalue : ∀ k', count k' ≠ 0 → value' k' = value k') (hnew : value' k = some c) :
    Counted count' value' (holders.insert h (k, c)) := by
  constructor
  · intro k'
    rw [hcount, hc.count, sharing, sharing, FinMap.total_insert_of_none _ _ hfree]
    simp only [eq_comm (a := k)]
    omega
  · intro h' x hx
    rw [FinMap.get?_insert] at hx
    split at hx
    · cases hx
      exact hnew
    · rw [hvalue x.1 (hc.pos hx)]
      exact hc.value h' x hx

/-- One holder less. The value may go when nobody is left. -/
theorem release (hc : Counted count value holders) (hheld : holders.get? h = some (k, c))
    (hcount : ∀ k', count' k' + (if k' = k then 1 else 0) = count k')
    (hvalue : ∀ k', count' k' ≠ 0 → value' k' = value k') :
    Counted count' value' (holders.erase h) := by
  have hrest : ∀ k', count' k' = sharing (holders.erase h) k' := by
    intro k'
    have herase := FinMap.total_erase (fun x : K × C => if x.1 = k' then 1 else 0) hheld
    have hk := hcount k'
    rw [hc.count, sharing, ← herase] at hk
    simp only [eq_comm (a := k)] at hk
    exact Nat.add_right_cancel hk
  constructor
  · exact hrest
  · intro h' x hx
    rw [hvalue x.1 (by rw [hrest]; exact sharing_pos hx)]
    rw [FinMap.get?_erase] at hx
    split at hx
    · cases hx
    · exact hc.value h' x hx

end Counted

end Shared

/-! ## Numbered places -/

/-- A measure of the places that the holders have. -/
def weight (f : Option Nat → Nat) (place : V → Option Nat) (holders : FinMap H V) : Nat :=
  FinMap.total (fun v => f (place v)) holders

def isPlace (i : Nat) (x : Option Nat) : Nat := if x = some i then 1 else 0

def anyPlace (x : Option Nat) : Nat := if x.isSome then 1 else 0

/-- Each of the first `n` places is free or taken, once. -/
structure Dealt (n : Nat) (free : List Nat) (place : V → Option Nat) (holders : FinMap H V) :
    Prop where
  once : ∀ i, free.count i + weight (isPlace i) place holders = if i < n then 1 else 0
  all : free.length + weight anyPlace place holders = n

section Weights

variable [DecidableEq H] {f : Option Nat → Nat} (place : V → Option Nat) {holders : FinMap H V}
  {h : H} {v w : V}

theorem weight_insert (hfree : holders.get? h = none) :
    weight f place (holders.insert h v) = f (place v) + weight f place holders :=
  FinMap.total_insert_of_none _ v hfree

theorem weight_erase (hheld : holders.get? h = some v) :
    weight f place (holders.erase h) + f (place v) = weight f place holders :=
  FinMap.total_erase _ hheld

theorem weight_replace (hheld : holders.get? h = some v) :
    weight f place (holders.insert h w) + f (place v) = weight f place holders + f (place w) :=
  FinMap.total_replace _ w hheld

end Weights

theorem count_cons_isPlace (i j : Nat) (free : List Nat) :
    (i :: free).count j = free.count j + isPlace j (some i) := by
  simp [isPlace, List.count_cons]

namespace Dealt

theorem empty (n : Nat) (place : V → Option Nat) :
    Dealt n (List.range n) place (∅ : FinMap H V) := by
  constructor
  · intro i
    rw [weight, FinMap.total_empty, List.count_range]
    rfl
  · rw [weight, FinMap.total_empty, List.length_range]
    rfl

variable {n i : Nat} {free : List Nat} {place : V → Option Nat} {holders : FinMap H V}

theorem nodup (hd : Dealt n free place holders) : free.Nodup := by
  rw [List.nodup_iff_count_le_one]
  intro i
  have hi := hd.once i
  split at hi <;> omega

theorem lt_of_free (hd : Dealt n free place holders) (hi : i ∈ free) : i < n := by
  have hpos := List.count_pos_iff.mpr hi
  have honce := hd.once i
  by_contra hlt
  rw [if_neg hlt] at honce
  omega

variable [DecidableEq H] {h : H} {v w : V}

/-- A holder comes without a place. -/
theorem enter (hd : Dealt n free place holders) (hfree : holders.get? h = none)
    (hv : place v = none) : Dealt n free place (holders.insert h v) := by
  constructor
  · intro i
    rw [weight_insert place hfree, hv, ← hd.once i, isPlace, if_neg (by simp), Nat.zero_add]
  · rw [weight_insert place hfree, hv, anyPlace, if_neg (by simp), Nat.zero_add]
    exact hd.all

/-- A holder goes that has no place any more. -/
theorem leave (hd : Dealt n free place holders) (hheld : holders.get? h = some v)
    (hv : place v = none) : Dealt n free place (holders.erase h) := by
  constructor
  · intro i
    have hweight := weight_erase place (f := isPlace i) hheld
    rw [hv, isPlace, if_neg (by simp), Nat.add_zero] at hweight
    rw [hweight]
    exact hd.once i
  · have hweight := weight_erase place (f := anyPlace) hheld
    rw [hv, anyPlace, if_neg (by simp), Nat.add_zero] at hweight
    rw [hweight]
    exact hd.all

/-- A holder changes while the free places make up for it. -/
theorem move (hd : Dealt n free place holders) (hheld : holders.get? h = some v)
    {free' : List Nat}
    (hcount : ∀ j, free'.count j + isPlace j (place w) = free.count j + isPlace j (place v))
    (hlength : free'.length + anyPlace (place w) = free.length + anyPlace (place v)) :
    Dealt n free' place (holders.insert h w) := by
  constructor
  · intro j
    have hweight := weight_replace place (f := isPlace j) (w := w) hheld
    have hj := hcount j
    rw [← hd.once j]
    omega
  · have hweight := weight_replace place (f := anyPlace) (w := w) hheld
    have hall := hd.all
    omega

theorem take (hd : Dealt n (i :: free) place holders) (hheld : holders.get? h = some v)
    (hv : place v = none) (hw : place w = some i) :
    Dealt n free place (holders.insert h w) := by
  apply hd.move hheld
  · intro j
    rw [hv, hw, count_cons_isPlace]
    rfl
  · rw [hv, hw]
    rfl

theorem give (hd : Dealt n free place holders) (hheld : holders.get? h = some v)
    (hv : place v = some i) (hw : place w = none) :
    Dealt n (i :: free) place (holders.insert h w) := by
  apply hd.move hheld
  · intro j
    rw [hv, hw, count_cons_isPlace]
    rfl
  · rw [hv, hw]
    rfl

/-- What is taken is a place, and not free. -/
theorem taken (hd : Dealt n free place holders) (hheld : holders.get? h = some v)
    (hv : place v = some i) : i < n ∧ i ∉ free := by
  have hle := FinMap.le_total (fun v => isPlace i (place v)) hheld
  have hi := hd.once i
  rw [hv, isPlace, if_pos rfl] at hle
  unfold weight at hi
  constructor
  · by_contra hlt
    rw [if_neg hlt] at hi
    omega
  · rw [← List.count_eq_zero]
    split at hi <;> omega

/-- Two holders have two places. -/
theorem apart (hd : Dealt n free place holders) {h' : H} (hne : h ≠ h')
    (hheld : holders.get? h = some v) (hheld' : holders.get? h' = some w)
    (hv : place v = some i) : place w ≠ some i := by
  intro hw
  have hle := FinMap.add_le_total (fun v => isPlace i (place v)) hne hheld hheld'
  have hi := hd.once i
  rw [hv, hw, isPlace, if_pos rfl] at hle
  unfold weight at hi
  split at hi <;> omega

theorem free_or_taken (hd : Dealt n free place holders) (hi : i < n) :
    i ∈ free ∨ ∃ h v, holders.get? h = some v ∧ place v = some i := by
  have honce := hd.once i
  rw [if_pos hi] at honce
  by_cases hfree : i ∈ free
  · exact .inl hfree
  · right
    rw [← List.count_eq_zero] at hfree
    have hpos : weight (isPlace i) place holders ≠ 0 := by omega
    obtain ⟨h, v, hheld, hv⟩ := FinMap.exists_of_total hpos
    refine ⟨h, v, hheld, ?_⟩
    by_contra hne
    exact hv (if_neg hne)

end Dealt

end BlobCache.Holders
