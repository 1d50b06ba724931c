import Mathlib.Algebra.BigOperators.Group.List.Basic
import Mathlib.Algebra.Order.Ring.Nat
import Mathlib.Data.List.AList

/-!
Finite maps with values of one type, as association lists without duplicate
keys, and the sum of a measure over the values. The order of the list is the
order in which a hash map is walked; nothing below depends on it.
-/

namespace BlobCache

def FinMap (K V : Type) := AList fun _ : K => V

namespace FinMap

variable {K V L W : Type}

instance : EmptyCollection (FinMap K V) := ⟨(∅ : AList fun _ : K => V)⟩

instance [DecidableEq K] [DecidableEq V] : DecidableEq (FinMap K V) :=
  inferInstanceAs (DecidableEq (AList fun _ : K => V))

def keys (m : FinMap K V) : List K := AList.keys m

theorem nodup_keys (m : FinMap K V) : m.keys.Nodup := AList.keys_nodup m

def values (m : FinMap K V) : List V := m.entries.map Sigma.snd

/-- `f` applied to every value, with the keys as they are. -/
def mapVals (m : FinMap K V) (f : V → V) : FinMap K V where
  entries := m.entries.map (.map id fun _ => f)
  nodupKeys := by
    have hkeys := m.nodupKeys
    unfold List.NodupKeys List.keys at hkeys ⊢
    rw [List.map_map]
    exact hkeys

/-- The sum of a measure over the values of a map. -/
def total (f : V → Nat) (m : FinMap K V) : Nat := (m.entries.map fun e => f e.2).sum

@[simp] theorem total_empty (f : V → Nat) : total f (∅ : FinMap K V) = 0 := rfl

theorem total_mapVals (f : V → Nat) (g : V → V) (m : FinMap K V) :
    total f (m.mapVals g) = total (fun v => f (g v)) m := by
  simp [total, mapVals, List.map_map, Function.comp_def, Sigma.map]

variable [DecidableEq K] [DecidableEq L]

def get? (m : FinMap K V) (a : K) : Option V := AList.lookup a m

def insert (m : FinMap K V) (a : K) (v : V) : FinMap K V := AList.insert a v m

def erase (m : FinMap K V) (a : K) : FinMap K V := AList.erase a m

@[simp] theorem get?_empty (a : K) : (∅ : FinMap K V).get? a = none := rfl

theorem get?_insert (m : FinMap K V) (a b : K) (v : V) :
    (m.insert a v).get? b = if b = a then some v else m.get? b := by
  by_cases h : b = a
  · subst h
    rw [if_pos rfl]
    exact AList.lookup_insert (a := b) (b := v) m
  · rw [if_neg h]
    exact AList.lookup_insert_ne (s := m) h

theorem get?_erase (m : FinMap K V) (a b : K) :
    (m.erase a).get? b = if b = a then none else m.get? b := by
  by_cases h : b = a
  · subst h
    rw [if_pos rfl]
    exact AList.lookup_erase b m
  · rw [if_neg h]
    exact AList.lookup_erase_ne (s := m) h

@[simp] theorem get?_insert_self (m : FinMap K V) (a : K) (v : V) :
    (m.insert a v).get? a = some v := by simp [get?_insert]

@[simp] theorem get?_erase_self (m : FinMap K V) (a : K) : (m.erase a).get? a = none := by
  simp [get?_erase]

theorem mem_keys_iff {m : FinMap K V} {a : K} : a ∈ m.keys ↔ ∃ v, m.get? a = some v := by
  rw [← Option.isSome_iff_exists]
  exact AList.lookup_isSome.symm

theorem not_mem_keys_iff {m : FinMap K V} {a : K} : a ∉ m.keys ↔ m.get? a = none := by
  rw [mem_keys_iff, ← Option.isSome_iff_exists]
  simp

theorem mem_values_iff {m : FinMap K V} {v : V} : v ∈ m.values ↔ ∃ k, m.get? k = some v := by
  unfold values
  rw [List.mem_map]
  constructor
  · rintro ⟨⟨k, w⟩, hmem, rfl⟩
    exact ⟨k, List.mem_dlookup m.nodupKeys hmem⟩
  · rintro ⟨k, hk⟩
    exact ⟨⟨k, v⟩, List.of_mem_dlookup hk, rfl⟩

theorem get?_mapVals (m : FinMap K V) (f : V → V) (k : K) :
    (m.mapVals f).get? k = (m.get? k).map f :=
  List.dlookup_map₂ (f := fun _ => f) k

theorem keys_erase (m : FinMap K V) (a : K) : (m.erase a).keys = m.keys.erase a :=
  AList.keys_erase a m

theorem eq_empty_of_get? {m : FinMap K V} (h : ∀ a, m.get? a = none) : m = ∅ := by
  apply AList.ext
  cases hm : m.entries with
  | nil => rfl
  | cons e l =>
      have hmem : e.1 ∈ m.keys := by simp [keys, AList.keys, hm]
      exact absurd hmem (not_mem_keys_iff.mpr (h e.1))

theorem insert_insert (m : FinMap K V) (a : K) (v w : V) :
    (m.insert a v).insert a w = m.insert a w :=
  AList.insert_insert m

theorem insert_erase_self (m : FinMap K V) (a : K) (v : V) :
    (m.erase a).insert a v = m.insert a v := by
  apply AList.ext
  have hkeys : a ∉ List.keys (m.erase a).entries :=
    not_mem_keys_iff.mpr (get?_erase_self m a)
  have herase := List.kerase_of_notMem_keys hkeys
  exact (AList.entries_insert (b := v)).trans
    ((congrArg _ herase).trans (AList.entries_insert (b := v) (s := m)).symm)

theorem total_insert_of_none (f : V → Nat) {m : FinMap K V} {a : K} (v : V)
    (h : m.get? a = none) : total f (m.insert a v) = f v + total f m := by
  have hentries := AList.entries_insert_of_notMem (b := v) (AList.lookup_eq_none.mp h)
  change ((AList.insert a v m).entries.map _).sum = _
  rw [hentries]
  simp [total]

private theorem sum_kerase (f : V → Nat) {a : K} {v : V} (l : List (Sigma fun _ : K => V))
    (h : l.dlookup a = some v) :
    ((l.kerase a).map fun e => f e.2).sum + f v = (l.map fun e => f e.2).sum := by
  induction l with
  | nil => simp at h
  | cons e l ih =>
      obtain ⟨b, w⟩ := e
      by_cases hab : a = b
      · subst hab
        rw [List.dlookup_cons_eq] at h
        cases h
        simp [List.kerase, Nat.add_comm]
      · rw [List.dlookup_cons_ne _ _ (by simpa using hab)] at h
        rw [List.kerase_cons_ne (by simpa using hab)]
        have := ih h
        simp only [List.map_cons, List.sum_cons]
        omega

theorem total_erase (f : V → Nat) {m : FinMap K V} {a : K} {v : V} (h : m.get? a = some v) :
    total f (m.erase a) + f v = total f m :=
  sum_kerase f m.entries h

theorem le_total (f : V → Nat) {m : FinMap K V} {a : K} {v : V} (h : m.get? a = some v) :
    f v ≤ total f m := by
  have := total_erase f h
  omega

theorem total_replace (f : V → Nat) {m : FinMap K V} {a : K} {v : V} (w : V)
    (h : m.get? a = some v) : total f (m.insert a w) + f v = total f m + f w := by
  have herase := total_erase f h
  have hinsert := total_insert_of_none f w (get?_erase_self m a)
  rw [insert_erase_self] at hinsert
  omega

/-- `insert` whatever was there before. -/
theorem total_insert (f : V → Nat) (m : FinMap K V) (a : K) (v : V) :
    total f (m.insert a v) + ((m.get? a).map f).getD 0 = total f m + f v := by
  cases h : m.get? a with
  | none => simp [total_insert_of_none f v h, Nat.add_comm]
  | some w => simpa using total_replace f v h

/-- Two entries count twice. -/
theorem add_le_total (f : V → Nat) {m : FinMap K V} {a b : K} {v w : V} (hab : a ≠ b)
    (ha : m.get? a = some v) (hb : m.get? b = some w) : f v + f w ≤ total f m := by
  have herase := total_erase f ha
  have hrest : (m.erase a).get? b = some w := by rw [get?_erase, if_neg (Ne.symm hab), hb]
  have hle := le_total f hrest
  omega

theorem exists_of_total {f : V → Nat} {m : FinMap K V} (h : total f m ≠ 0) :
    ∃ a v, m.get? a = some v ∧ f v ≠ 0 := by
  by_contra hnone
  push Not at hnone
  apply h
  apply List.sum_eq_zero
  intro x hx
  obtain ⟨e, he, rfl⟩ := List.mem_map.mp hx
  exact hnone e.1 e.2 (List.mem_dlookup m.nodupKeys he)

/-- A map whose values are matched one to one by entries of another map that
are at least as large has the smaller total. -/
theorem total_le_of_cover (f : V → Nat) (g : W → Nat) (φ : L → K) (m : FinMap K V)
    (m' : FinMap L W)
    (h : ∀ a v, m.get? a = some v → ∃ b w, m'.get? b = some w ∧ φ b = a ∧ f v ≤ g w) :
    total f m ≤ total g m' := by
  induction m using AList.insertRec generalizing m' with
  | H0 => exact Nat.zero_le _
  | IH a v m hnot ih =>
      have hnone : get? m a = none := AList.lookup_eq_none.mpr hnot
      obtain ⟨b, w, hb, hφ, hle⟩ := h a v (get?_insert_self m a v)
      have hrest : total f m ≤ total g (m'.erase b) := by
        apply ih
        intro a' v' ha'
        have hne : a' ≠ a := by
          rintro rfl
          rw [hnone] at ha'
          cases ha'
        obtain ⟨b', w', hb', hφ', hle'⟩ :=
          h a' v' ((get?_insert m a a' v).trans (by simp [hne, ha']))
        have hbb : b' ≠ b := by
          rintro rfl
          exact hne (hφ'.symm.trans hφ)
        exact ⟨b', w', by simp [get?_erase, hbb, hb'], hφ', hle'⟩
      have hins : total f (FinMap.insert m a v) = f v + total f m := total_insert_of_none f v hnone
      change total f (FinMap.insert m a v) ≤ _
      have := total_erase g hb
      omega

theorem total_mono {f g : V → Nat} (h : ∀ v, f v ≤ g v) (m : FinMap K V) :
    total f m ≤ total g m :=
  total_le_of_cover f g id m m fun a v ha => ⟨a, v, ha, rfl, h v⟩

end FinMap

end BlobCache
