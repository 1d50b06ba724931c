import BlobCache.Data.FinMap

/-!
Tables of records that are stored under their own key. What distinguishes a
table from a finite map is the field `keyed`; the operations keep it, so that
no later proof has to ask where a record is stored.
-/

namespace BlobCache

structure Table {K V : Type} [DecidableEq K] (key : V → K) where
  map : FinMap K V
  keyed : ∀ k v, map.get? k = some v → key v = k

namespace Table

variable {K V : Type} [DecidableEq K] {key : V → K}

def empty : Table key := ⟨∅, by simp⟩

def get? (t : Table key) (k : K) : Option V := t.map.get? k

def values (t : Table key) : List V := t.map.values

def insert (t : Table key) (v : V) : Table key where
  map := t.map.insert (key v) v
  keyed k w h := by
    rw [FinMap.get?_insert] at h
    split at h
    · rename_i hk
      cases h
      exact hk.symm
    · exact t.keyed k w h

/-- Every record replaced by one with the same key. -/
def modify (t : Table key) (f : V → V) (hf : ∀ v, key (f v) = key v) : Table key where
  map := t.map.mapVals f
  keyed k w h := by
    rw [FinMap.get?_mapVals] at h
    obtain ⟨v, hv, rfl⟩ := Option.map_eq_some_iff.mp h
    rw [hf, t.keyed k v hv]

@[simp] theorem get?_empty (k : K) : (empty : Table key).get? k = none := rfl

theorem get?_insert (t : Table key) (v : V) (k : K) :
    (t.insert v).get? k = if k = key v then some v else t.get? k :=
  FinMap.get?_insert t.map (key v) k v

@[simp] theorem get?_modify (t : Table key) (f : V → V) (hf : ∀ v, key (f v) = key v) (k : K) :
    (t.modify f hf).get? k = (t.get? k).map f :=
  FinMap.get?_mapVals t.map f k

theorem mem_values_iff {t : Table key} {v : V} : v ∈ t.values ↔ t.get? (key v) = some v := by
  constructor
  · intro hmem
    obtain ⟨k, hk⟩ := FinMap.mem_values_iff.mp hmem
    rw [t.keyed k v hk]
    exact hk
  · intro hget
    exact FinMap.mem_values_iff.mpr ⟨key v, hget⟩

theorem map_key_values (t : Table key) : t.values.map key = t.map.keys := by
  change (t.map.entries.map Sigma.snd).map key = t.map.entries.map Sigma.fst
  rw [List.map_map]
  apply List.map_congr_left
  rintro ⟨k, v⟩ hmem
  exact t.keyed k v (List.mem_dlookup t.map.nodupKeys hmem)

/-- Records of a table differ in their keys. -/
theorem values_nodup (t : Table key) : (t.values.map key).Nodup := by
  rw [map_key_values]
  exact t.map.nodupKeys

end Table

end BlobCache
