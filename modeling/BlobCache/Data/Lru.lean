import Mathlib.Data.List.Infix
import Mathlib.Data.List.Nodup
import BlobCache.Data.FinMap

/-!
A map bounded by the total size of its values, as a list in the order of the last
use, the least recent entry first. A new entry goes to the end, and entries leave
at the front until the rest fits.

An implementation does not sum the sizes again for each entry that leaves: it goes by
a counter. A counter that never exceeds the sizes keeps the last entry, and one that is
exact leaves what fits.
-/

namespace BlobCache.Lru

variable {K V W : Type}

/-- The size of all values together. -/
def total (size : V → Nat) (l : List (K × V)) : Nat := (l.map fun x => size x.2).sum

/-- What is left after entries have gone from the front until the rest fits. -/
def fit (size : V → Nat) (maxBytes : Nat) : List (K × V) → List (K × V)
  | [] => []
  | x :: l => if total size (x :: l) ≤ maxBytes then x :: l else fit size maxBytes l

section Fitting

variable {size : V → Nat} {maxBytes : Nat} {l u : List (K × V)}

@[simp] theorem total_nil : total size ([] : List (K × V)) = 0 := rfl

@[simp] theorem total_cons (x : K × V) (l : List (K × V)) :
    total size (x :: l) = size x.2 + total size l := by
  simp [total]

@[simp] theorem total_append (l u : List (K × V)) :
    total size (l ++ u) = total size l + total size u := by
  simp [total]

theorem fit_suffix (l : List (K × V)) : fit size maxBytes l <:+ l := by
  induction l with
  | nil => exact List.suffix_refl _
  | cons x l ih =>
      rw [fit]
      split
      · exact List.suffix_refl _
      · exact ih.trans (List.suffix_cons x l)

theorem total_fit_le (l : List (K × V)) : total size (fit size maxBytes l) ≤ maxBytes := by
  induction l with
  | nil => exact Nat.zero_le _
  | cons x l ih =>
      rw [fit]
      split
      · assumption
      · exact ih

/-- Every end of the list that fits is an end of what is left. -/
theorem suffix_fit (hu : u <:+ l) (hfits : total size u ≤ maxBytes) :
    u <:+ fit size maxBytes l := by
  induction l with
  | nil => exact hu
  | cons x l ih =>
      rw [fit]
      rcases List.suffix_cons_iff.mp hu with rfl | hu
      · rw [if_pos hfits]
      · split
        · exact hu.trans (List.suffix_cons x l)
        · exact ih hu

theorem fit_of_le (h : total size l ≤ maxBytes) : fit size maxBytes l = l := by
  cases l with
  | nil => rfl
  | cons x l => rw [fit, if_pos h]

/-- The last entry stays exactly if it fits by itself. -/
theorem mem_fit_append_singleton {x : K × V} :
    x ∈ fit size maxBytes (l ++ [x]) ↔ size x.2 ≤ maxBytes := by
  constructor
  · intro hmem
    have hle : total size (fit size maxBytes (l ++ [x])) ≤ maxBytes := total_fit_le _
    obtain ⟨a, b, hab⟩ := List.append_of_mem hmem
    rw [hab, total_append, total_cons] at hle
    omega
  · intro hfits
    have hlast : [x] <:+ fit size maxBytes (l ++ [x]) :=
      suffix_fit (List.suffix_append l [x]) (by simpa using hfits)
    exact hlast.subset (List.mem_singleton_self x)

/-- The loop that lets entries go by a counter, with the counter that it ends with. -/
def evict (size : V → Nat) (maxBytes : Nat) : Nat → List (K × V) → List (K × V) × Nat
  | counter, [] => ([], counter)
  | counter, x :: l =>
      if maxBytes < counter then evict size maxBytes (counter - size x.2) l else (x :: l, counter)

theorem evict_suffix (counter : Nat) (l : List (K × V)) :
    (evict size maxBytes counter l).1 <:+ l := by
  induction l generalizing counter with
  | nil => exact List.suffix_refl _
  | cons x l ih =>
      rw [evict]
      split
      · exact (ih _).trans (List.suffix_cons x l)
      · exact List.suffix_refl _

/-- A counter that does not exceed the sizes ends below the bound. -/
theorem evict_counter_le {counter : Nat} (h : counter ≤ total size l) :
    (evict size maxBytes counter l).2 ≤ total size (evict size maxBytes counter l).1 ∧
      (evict size maxBytes counter l).2 ≤ maxBytes := by
  induction l generalizing counter with
  | nil => exact ⟨h, h.trans (Nat.zero_le _)⟩
  | cons x l ih =>
      rw [total_cons] at h
      rw [evict]
      split
      · exact ih (by omega)
      · rename_i hfits
        exact ⟨by rwa [total_cons], Nat.le_of_not_lt hfits⟩

/-- Such a counter does not let the last entry go if that one fits by itself. -/
theorem suffix_evict {x : K × V} {counter : Nat} (h : counter ≤ total size (l ++ [x]))
    (hfits : size x.2 ≤ maxBytes) : [x] <:+ (evict size maxBytes counter (l ++ [x])).1 := by
  induction l generalizing counter with
  | nil =>
      have hle : counter ≤ size x.2 := by simpa using h
      rw [List.nil_append, evict, if_neg (by omega)]
  | cons y l ih =>
      rw [List.cons_append, total_cons] at h
      rw [List.cons_append, evict]
      split
      · exact ih (by omega)
      · exact (List.suffix_append l [x]).trans (List.suffix_cons y _)

theorem evict_eq_fit (l : List (K × V)) :
    evict size maxBytes (total size l) l =
      (fit size maxBytes l, total size (fit size maxBytes l)) := by
  induction l with
  | nil => rfl
  | cons x l ih =>
      rw [evict, fit]
      split
      · rename_i hover
        rw [if_neg (by omega), ← ih, total_cons, Nat.add_sub_cancel_left]
      · rename_i hfits
        rw [if_pos (by omega)]

/-- Other values under the same keys. -/
def mapVals (f : V → W) (l : List (K × V)) : List (K × W) := l.map fun x => (x.1, f x.2)

theorem total_mapVals (f : V → W) (size : W → Nat) (l : List (K × V)) :
    total size (mapVals f l) = total (fun v => size (f v)) l := by
  simp [total, mapVals, Function.comp_def]

@[simp] theorem keys_mapVals (f : V → W) (l : List (K × V)) :
    (mapVals f l).map Prod.fst = l.map Prod.fst := by
  simp [mapVals, Function.comp_def]

theorem mapVals_append (f : V → W) (l u : List (K × V)) :
    mapVals f (l ++ u) = mapVals f l ++ mapVals f u :=
  List.map_append

/-- Only the sizes decide what is left. -/
theorem fit_mapVals (f : V → W) (size : W → Nat) (maxBytes : Nat) (l : List (K × V)) :
    fit size maxBytes (mapVals f l) = mapVals f (fit (fun v => size (f v)) maxBytes l) := by
  induction l with
  | nil => rfl
  | cons x l ih =>
      have htotal := total_mapVals f size (x :: l)
      change fit size maxBytes ((x.1, f x.2) :: mapVals f l) = _
      rw [fit, fit, ← htotal, ih]
      change (if total size (mapVals f (x :: l)) ≤ maxBytes then mapVals f (x :: l) else _) = _
      split
      · rfl
      · rfl

end Fitting

section Keys

variable [DecidableEq K]

def get? (l : List (K × V)) (k : K) : Option V := (l.find? fun x => x.1 = k).map Prod.snd

def erase (l : List (K × V)) (k : K) : List (K × V) := l.filter fun x => x.1 ≠ k

/-- The entry of a key moves to the end. -/
def touch (l : List (K × V)) (k : K) : List (K × V) :=
  match get? l k with
  | none => l
  | some v => erase l k ++ [(k, v)]

/-- A new entry takes the place of an old one of its key. -/
def insert (size : V → Nat) (maxBytes : Nat) (l : List (K × V)) (k : K) (v : V) :
    List (K × V) :=
  fit size maxBytes (erase l k ++ [(k, v)])

section Lookup

variable {l : List (K × V)} {k : K}

theorem get?_eq_none : get? l k = none ↔ ∀ x ∈ l, x.1 ≠ k := by
  simp [get?, List.find?_eq_none]

theorem isSome_get? : (get? l k).isSome = true ↔ k ∈ l.map Prod.fst := by
  simp [get?]

theorem mem_of_get? {v : V} (h : get? l k = some v) : (k, v) ∈ l := by
  obtain ⟨⟨k', v'⟩, hfind, rfl⟩ := Option.map_eq_some_iff.mp h
  have hk : k' = k := by simpa using List.find?_some hfind
  subst hk
  exact List.mem_of_find?_eq_some hfind

theorem get?_of_mem {v : V} (hnodup : (l.map Prod.fst).Nodup) (h : (k, v) ∈ l) :
    get? l k = some v := by
  cases hget : get? l k with
  | none => exact absurd rfl (get?_eq_none.mp hget (k, v) h)
  | some w =>
      have hinj := List.inj_on_of_nodup_map hnodup h (mem_of_get? hget) rfl
      cases hinj
      rfl

theorem mem_erase {x : K × V} : x ∈ erase l k ↔ x ∈ l ∧ x.1 ≠ k := by
  simp [erase]

theorem erase_eq_self (h : ∀ x ∈ l, x.1 ≠ k) : erase l k = l := by
  rw [erase, List.filter_eq_self]
  simpa using h

/-- With distinct keys one entry goes. -/
theorem erase_append_cons {a b : List (K × V)} {v : V}
    (hnodup : ((a ++ (k, v) :: b).map Prod.fst).Nodup) :
    erase (a ++ (k, v) :: b) k = a ++ b := by
  rw [List.map_append, List.map_cons] at hnodup
  have hboth := List.nodup_middle.mp hnodup
  rw [List.nodup_cons, ← List.map_append] at hboth
  have hother : ∀ x ∈ a ++ b, x.1 ≠ k := by
    intro x hx hkey
    exact hboth.1 (List.mem_map.mpr ⟨x, hx, hkey⟩)
  have hkept : erase (a ++ (k, v) :: b) k = erase (a ++ b) k := by simp [erase]
  rw [hkept, erase_eq_self hother]

theorem erase_mapVals (f : V → W) (l : List (K × V)) (k : K) :
    erase (mapVals f l) k = mapVals f (erase l k) := by
  simp [erase, mapVals, List.filter_map, Function.comp_def]

theorem get?_mapVals (f : V → W) (l : List (K × V)) (k : K) :
    get? (mapVals f l) k = (get? l k).map f := by
  simp [get?, mapVals, List.find?_map, Function.comp_def]

/-- Moving an entry changes the order only. -/
theorem mem_of_mem_touch {x : K × V} (h : x ∈ touch l k) : x ∈ l := by
  unfold touch at h
  split at h
  · exact h
  · rename_i v hv
    rcases List.mem_append.mp h with hold | hlast
    · exact (mem_erase.mp hold).1
    · rw [List.mem_singleton.mp hlast]
      exact mem_of_get? hv

end Lookup

end Keys

section Maps

/-- The entries of a map that puts the latest one first. -/
def ofMap (m : FinMap K V) : List (K × V) := (m.entries.map fun e => (e.1, e.2)).reverse

theorem keys_ofMap (m : FinMap K V) : (ofMap m).map Prod.fst = m.keys.reverse := by
  rw [ofMap, List.map_reverse, List.map_map]
  rfl

theorem nodup_ofMap (m : FinMap K V) : ((ofMap m).map Prod.fst).Nodup := by
  rw [keys_ofMap, List.nodup_reverse]
  exact m.nodup_keys

variable [DecidableEq K]

theorem get?_ofMap (m : FinMap K V) (k : K) : get? (ofMap m) k = m.get? k := by
  cases hk : m.get? k with
  | none =>
      apply get?_eq_none.mpr
      intro x hx heq
      have hmem : x.1 ∈ m.keys.reverse := keys_ofMap m ▸ List.mem_map_of_mem hx
      rw [List.mem_reverse, heq] at hmem
      exact FinMap.not_mem_keys_iff.mpr hk hmem
  | some v =>
      apply get?_of_mem (nodup_ofMap m)
      rw [ofMap, List.mem_reverse, List.mem_map]
      exact ⟨⟨k, v⟩, List.of_mem_dlookup hk, rfl⟩

private theorem kerase_eq_filter {k : K} {l : List (Sigma fun _ : K => V)} (h : l.NodupKeys) :
    l.kerase k = l.filter fun e => e.1 ≠ k := by
  induction l with
  | nil => rfl
  | cons e l ih =>
      have hrest := List.nodupKeys_cons.mp h
      by_cases hk : k = e.1
      · subst hk
        have hself : l.filter (fun e' => e'.1 ≠ e.1) = l := by
          rw [List.filter_eq_self]
          intro e' he'
          have hne : e'.1 ≠ e.1 := fun heq => hrest.1 (heq ▸ List.mem_keys_of_mem he')
          exact decide_eq_true hne
        rw [List.kerase_cons_eq rfl, List.filter_cons_of_neg (by simp), hself]
      · have hne : e.1 ≠ k := fun heq => hk heq.symm
        rw [List.kerase_cons_ne hk, List.filter_cons_of_pos (by simp [hne]), ih hrest.2]

theorem ofMap_erase (m : FinMap K V) (k : K) : ofMap (m.erase k) = erase (ofMap m) k := by
  change ((m.entries.kerase k).map _).reverse = _
  rw [kerase_eq_filter m.nodupKeys, ofMap, erase, List.filter_reverse, List.filter_map]
  rfl

theorem ofMap_insert (m : FinMap K V) (k : K) (v : V) :
    ofMap (m.insert k v) = erase (ofMap m) k ++ [(k, v)] := by
  have hentries : (m.insert k v).entries = ⟨k, v⟩ :: (m.erase k).entries := AList.entries_insert
  rw [← ofMap_erase, ofMap, hentries, List.map_cons, List.reverse_cons, ofMap]

theorem total_erase {m : FinMap K V} {k : K} {v : V} (size : V → Nat) (h : m.get? k = some v) :
    total size (erase (ofMap m) k) + size v = total size (ofMap m) := by
  have htotal (m : FinMap K V) : total size (ofMap m) = FinMap.total size m := by
    rw [total, ofMap, List.map_reverse, List.sum_reverse, List.map_map]
    rfl
  rw [← ofMap_erase, htotal, htotal]
  exact FinMap.total_erase size h

end Maps

end BlobCache.Lru
