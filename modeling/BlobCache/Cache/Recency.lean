import BlobCache.Cache.Index
import BlobCache.Data.Lru
import Mathlib.Data.List.Perm.Subperm

/-!
The two maps of the index read as one list in the order of the access numbers.
Each section of `DiskCache` does to the list what the bounded map of `Data.Lru`
says, and the eviction loop takes entries off its front.
-/

namespace BlobCache.Cache

/-- The entries of the index, the least recently used first. -/
structure Ordered (g : Inner) (l : List (ChunkKey × Entry)) : Prop where
  rep : Rep g
  mem : ∀ k e, (k, e) ∈ l ↔ g.entries.get? k = some e
  sorted : l.Pairwise fun a b => a.2.lastAccessSeq < b.2.lastAccessSeq
  bytes : g.bytes = Lru.total Entry.size l

namespace Ordered

variable {g : Inner} {l : List (ChunkKey × Entry)}

theorem empty : Ordered Inner.empty [] where
  rep := Rep.empty
  mem k e := by simp [Inner.empty]
  sorted := .nil
  bytes := rfl

/-- Every key is in the list once. -/
theorem nodup (h : Ordered g l) : (l.map Prod.fst).Nodup := by
  rw [List.Nodup, List.pairwise_map]
  apply h.sorted.imp_of_mem
  rintro ⟨k, e⟩ ⟨k', e'⟩ hx hy hlt hkey
  obtain rfl : k = k' := hkey
  have he := (h.mem k e).mp hx
  have he' := (h.mem k e').mp hy
  rw [he] at he'
  cases he'
  exact lt_irrefl _ hlt

theorem get? (h : Ordered g l) (k : ChunkKey) : Lru.get? l k = g.entries.get? k := by
  cases hk : g.entries.get? k with
  | some e => exact Lru.get?_of_mem h.nodup ((h.mem k e).mpr hk)
  | none =>
      rw [Lru.get?_eq_none]
      rintro ⟨k', e⟩ hx rfl
      rw [(h.mem k' e).mp hx] at hk
      cases hk

theorem erase_of_none (h : Ordered g l) {k : ChunkKey} (hk : g.entries.get? k = none) :
    Lru.erase l k = l := by
  apply Lru.erase_eq_self
  rintro ⟨k', e⟩ hx rfl
  rw [(h.mem k' e).mp hx] at hk
  cases hk

theorem drop (h : Ordered g l) {k : ChunkKey} {e : Entry} (hk : g.entries.get? k = some e) :
    Ordered ({ g with
      entries := g.entries.erase k, lru := g.lru.erase e.lastAccessSeq }.release e.size)
      (Lru.erase l k) where
  rep := h.rep.drop hk
  mem k' e' := by
    simp only [Inner.release, FinMap.get?_erase, Lru.mem_erase, h.mem]
    by_cases hkk : k' = k <;> simp [hkk]
  sorted := h.sorted.sublist List.filter_sublist
  bytes := by
    obtain ⟨a, b, rfl⟩ := List.append_of_mem ((h.mem k e).mpr hk)
    have hbytes := h.bytes
    rw [Lru.total_append, Lru.total_cons] at hbytes
    rw [Lru.erase_append_cons h.nodup, Lru.total_append]
    simp only [Inner.release] at hbytes ⊢
    omega

theorem add (h : Ordered g l) {k : ChunkKey} (size : Nat) (hk : g.entries.get? k = none) :
    Ordered { g with
      seq := g.seq + 1
      entries := g.entries.insert k ⟨size, g.seq + 1⟩
      lru := g.lru.insert (g.seq + 1) k
      bytes := g.bytes + size } (l ++ [(k, ⟨size, g.seq + 1⟩)]) where
  rep := h.rep.add size hk
  mem k' e' := by
    simp only [FinMap.get?_insert, List.mem_append, List.mem_singleton, h.mem, Prod.mk.injEq]
    by_cases hkk : k' = k
    · subst hkk
      simp [hk, eq_comm]
    · simp [hkk]
  sorted := by
    refine List.pairwise_append.mpr ⟨h.sorted, List.pairwise_singleton _ _, ?_⟩
    rintro ⟨k', e'⟩ hx y hy
    rw [List.mem_singleton.mp hy]
    have hle := h.rep.seqBound _ _ (h.rep.lru_of_entry ((h.mem k' e').mp hx))
    exact Nat.lt_succ_of_le hle
  bytes := by
    rw [Lru.total_append, h.bytes]
    rfl

theorem insertEntry (h : Ordered g l) (k : ChunkKey) (size : Nat) :
    Ordered (g.insertEntry k size) (Lru.erase l k ++ [(k, ⟨size, g.seq + 1⟩)]) := by
  cases hk : g.entries.get? k with
  | none =>
      rw [h.erase_of_none hk]
      simpa [Inner.insertEntry, hk] using h.add size hk
  | some e =>
      have hadd := (h.drop hk).add (k := k) size (by simp [Inner.release])
      simpa [Inner.insertEntry, hk, Inner.release, FinMap.insert_erase_self] using hadd

theorem touchLru (h : Ordered g l) {k : ChunkKey} {e : Entry} (hk : g.entries.get? k = some e) :
    (g.touchLru k).1 = true ∧
      Ordered (g.touchLru k).2 (Lru.erase l k ++ [(k, ⟨e.size, g.seq + 1⟩)]) := by
  rw [h.rep.touchLru_eq hk]
  exact ⟨rfl, (h.drop hk).add e.size (by simp [Inner.release])⟩

theorem dropEntry (h : Ordered g l) {k : ChunkKey} {size : Nat} {g' : Inner}
    (hd : g.dropEntry k = some (size, g')) : Ordered g' (Lru.erase l k) := by
  obtain ⟨e, hk, rfl⟩ := Rep.entry_of_dropEntry hd
  exact h.drop hk

theorem clearAll (h : Ordered g l) : Ordered g.clearAll [] where
  rep := h.rep.clearAll
  mem k e := by simp [Inner.clearAll_entries]
  sorted := .nil
  bytes := rfl

/-! ## Eviction -/

/-- The front of the list is what the eviction loop takes next. -/
theorem oldest (x : ChunkKey × Entry) (h : Ordered g (x :: l)) :
    g.oldest = some (x.2.lastAccessSeq, x.1) := by
  have hx := h.rep.lru_of_entry ((h.mem x.1 x.2).mp List.mem_cons_self)
  have hmin : g.lru.keys.min? = some x.2.lastAccessSeq := by
    rw [List.min?_eq_some_iff]
    constructor
    · exact FinMap.mem_keys_iff.mpr ⟨x.1, hx⟩
    · intro s hs
      obtain ⟨k, hk⟩ := FinMap.mem_keys_iff.mp hs
      obtain ⟨e, he, rfl⟩ := (h.rep.inverse s k).mp hk
      rcases List.mem_cons.mp ((h.mem k e).mpr he) with rfl | hmem
      · exact le_rfl
      · exact (List.rel_of_pairwise_cons h.sorted hmem).le
  simp [Inner.oldest, hmin, hx]

theorem evictOne (x : ChunkKey × Entry) (h : Ordered g (x :: l)) :
    Ordered (g.evictOne x.2.lastAccessSeq x.1).1 l ∧
      (g.evictOne x.2.lastAccessSeq x.1).2 = [x.1] := by
  have hx := (h.mem x.1 x.2).mp List.mem_cons_self
  have hdrop := h.drop hx
  have hrest : Lru.erase (x :: l) x.1 = l := Lru.erase_append_cons (a := []) h.nodup
  rw [hrest] at hdrop
  constructor
  · simpa [Inner.evictOne, hx] using hdrop
  · simp [Inner.evictOne, hx]

theorem evictLoop (h : Ordered g l) (maxBytes fuel : Nat) (hfuel : l.length ≤ fuel) :
    Ordered (g.evictLoop maxBytes fuel).1 (Lru.fit Entry.size maxBytes l) ∧
      ∃ gone, l = gone ++ Lru.fit Entry.size maxBytes l ∧
        (g.evictLoop maxBytes fuel).2 = gone.map Prod.fst := by
  induction fuel generalizing g l with
  | zero =>
      obtain rfl : l = [] := List.eq_nil_of_length_eq_zero (by omega)
      exact ⟨h, [], rfl, rfl⟩
  | succ fuel ih =>
      have hbytes := h.bytes
      simp only [Inner.evictLoop]
      split
      · rename_i hbig
        cases l with
        | nil =>
            rw [Lru.total_nil] at hbytes
            omega
        | cons x l =>
            rw [h.oldest x]
            obtain ⟨hrest, hvictim⟩ := h.evictOne x
            obtain ⟨hordered, gone, hsplit, hgone⟩ := ih hrest (by simpa using hfuel)
            have hfit : Lru.fit Entry.size maxBytes (x :: l) = Lru.fit Entry.size maxBytes l := by
              rw [Lru.fit, if_neg (by omega)]
            rw [hfit]
            refine ⟨hordered, x :: gone, ?_, ?_⟩
            · rw [List.cons_append, ← hsplit]
            · simp only [hvictim, hgone, List.map_cons, List.cons_append, List.nil_append]
      · rw [Lru.fit_of_le (by omega)]
        exact ⟨h, [], rfl, rfl⟩

/-- The loop has a round for every entry. -/
theorem length_le (h : Ordered g l) : l.length ≤ g.lru.keys.length := by
  have hseqs : (l.map fun x => x.2.lastAccessSeq).Nodup := by
    rw [List.Nodup, List.pairwise_map]
    exact h.sorted.imp fun hlt => hlt.ne
  have hsub : (l.map fun x => x.2.lastAccessSeq) ⊆ g.lru.keys := by
    intro s hs
    obtain ⟨⟨k, e⟩, hx, rfl⟩ := List.mem_map.mp hs
    exact FinMap.mem_keys_iff.mpr ⟨k, h.rep.lru_of_entry ((h.mem k e).mp hx)⟩
  simpa using (List.subperm_of_subset hseqs hsub).length_le

theorem evictIfNeeded (h : Ordered g l) (maxBytes : Nat) :
    Ordered (g.evictIfNeeded maxBytes).1 (Lru.fit Entry.size maxBytes l) ∧
      ∃ gone, l = gone ++ Lru.fit Entry.size maxBytes l ∧
        (g.evictIfNeeded maxBytes).2 = gone.map Prod.fst :=
  h.evictLoop maxBytes _ h.length_le

end Ordered

end BlobCache.Cache
