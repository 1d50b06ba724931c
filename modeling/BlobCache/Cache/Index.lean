import Mathlib.Data.List.MinMax
import BlobCache.ChunkKey
import BlobCache.Data.FinMap

/-!
The in-memory index of the disk cache: the maps that `DiskCache` guards with
its mutex, and what each lock-protected section does to them. Removing files
is left to the caller, so eviction returns its victims.

`saturated` is a history flag. It records that a `saturating_sub` on `bytes`
met a size larger than the counter; no section reads it.
-/

namespace BlobCache.Cache

structure Entry where
  size : Nat
  lastAccessSeq : Nat
  deriving DecidableEq, Repr

structure Inner where
  entries : FinMap ChunkKey Entry
  lru : FinMap Nat ChunkKey
  seq : Nat
  bytes : Nat
  saturated : Bool

namespace Inner

def empty : Inner := ⟨∅, ∅, 0, 0, false⟩

/-- `g.bytes = g.bytes.saturating_sub(size)`. -/
def release (g : Inner) (size : Nat) : Inner :=
  { g with bytes := g.bytes - size, saturated := g.saturated || decide (g.bytes < size) }

/-- `g.lru.iter().next()`: the smallest sequence number. -/
def oldest (g : Inner) : Option (Nat × ChunkKey) :=
  match g.lru.keys.min? with
  | none => none
  | some seq => (g.lru.get? seq).map fun key => (seq, key)

/-- The section of `insert` up to the call of `evict_if_needed`. -/
def insertEntry (g : Inner) (key : ChunkKey) (size : Nat) : Inner :=
  let seq := g.seq + 1
  let g1 := { g with seq := seq, entries := g.entries.insert key ⟨size, seq⟩ }
  let g2 :=
    match g.entries.get? key with
    | some prev => { g1 with lru := g1.lru.erase prev.lastAccessSeq }.release prev.size
    | none => g1
  { g2 with lru := g2.lru.insert seq key, bytes := g2.bytes + size }

/-- One round of the eviction loop, after the oldest pair has been read. -/
def evictOne (g : Inner) (seq : Nat) (key : ChunkKey) : Inner × List ChunkKey :=
  let g1 := { g with lru := g.lru.erase seq }
  match g1.entries.get? key with
  | none => (g1, [])
  | some e => ({ g1 with entries := g1.entries.erase key }.release e.size, [key])

/-- The loop of `evict_if_needed`. Every round takes one pair out of `lru`, so
the length of `lru` is enough fuel. -/
def evictLoop (g : Inner) (maxBytes : Nat) : Nat → Inner × List ChunkKey
  | 0 => (g, [])
  | fuel + 1 =>
      if maxBytes < g.bytes then
        match g.oldest with
        | none => (g, [])
        | some (seq, key) =>
            let (g1, victims) := g.evictOne seq key
            let (g2, more) := g1.evictLoop maxBytes fuel
            (g2, victims ++ more)
      else (g, [])

def evictIfNeeded (g : Inner) (maxBytes : Nat) : Inner × List ChunkKey :=
  g.evictLoop maxBytes g.lru.keys.length

def touchLru (g : Inner) (key : ChunkKey) : Bool × Inner :=
  match g.entries.get? key with
  | none => (false, g)
  | some e =>
      let seq := g.seq + 1
      (true,
        { g with
          lru := (g.lru.erase e.lastAccessSeq).insert seq key
          seq := seq
          entries := g.entries.insert key { e with lastAccessSeq := seq } })

/-- Take an entry out of both maps and release its bytes. `remove` and
`reconcile_with_disk` share these lines. -/
def dropEntry (g : Inner) (key : ChunkKey) : Option (Nat × Inner) :=
  match g.entries.get? key with
  | none => none
  | some e =>
      some (e.size,
        { g with
          entries := g.entries.erase key
          lru := g.lru.erase e.lastAccessSeq }.release e.size)

/-- The loop of `reconcile_with_disk` over the keys found missing. -/
def reconcile (g : Inner) (dropped reclaimed : Nat) : List ChunkKey → Nat × Nat × Inner
  | [] => (dropped, reclaimed, g)
  | k :: missing =>
      match g.dropEntry k with
      | none => g.reconcile dropped reclaimed missing
      | some (size, g1) => g1.reconcile (dropped + 1) (saturatingAdd reclaimed size) missing

/-- The maps after the loop of `clear_all` over the keys. -/
def clearKeys (g : Inner) : List ChunkKey → Inner
  | [] => g
  | k :: keys =>
      match g.entries.get? k with
      | none => g.clearKeys keys
      | some e =>
          { g with
            entries := g.entries.erase k
            lru := g.lru.erase e.lastAccessSeq }.clearKeys keys

def clearAll (g : Inner) : Inner :=
  { g.clearKeys g.entries.keys with bytes := 0, lru := ∅ }

end Inner

/-- The representation invariant: the two maps are inverse to each other, no
sequence number is ahead of the counter, the byte counter is the exact sum. -/
structure Rep (g : Inner) : Prop where
  inverse : ∀ s k, g.lru.get? s = some k ↔
    ∃ e, g.entries.get? k = some e ∧ e.lastAccessSeq = s
  seqBound : ∀ s k, g.lru.get? s = some k → s ≤ g.seq
  bytes : g.bytes = FinMap.total Entry.size g.entries
  exact : g.saturated = false

namespace Rep

variable {g : Inner}

theorem empty : Rep Inner.empty where
  inverse s k := by simp [Inner.empty]
  seqBound s k h := by simp [Inner.empty] at h
  bytes := rfl
  exact := rfl

theorem lru_of_entry (h : Rep g) {k : ChunkKey} {e : Entry}
    (hk : g.entries.get? k = some e) : g.lru.get? e.lastAccessSeq = some k :=
  (h.inverse _ k).mpr ⟨e, hk, rfl⟩

/-- An access number belongs to one entry. -/
theorem eq_of_seq (h : Rep g) {k k' : ChunkKey} {e e' : Entry}
    (hk : g.entries.get? k = some e) (hk' : g.entries.get? k' = some e')
    (hs : e.lastAccessSeq = e'.lastAccessSeq) : k = k' := by
  have h1 := h.lru_of_entry hk
  have h2 := h.lru_of_entry hk'
  rw [hs, h2] at h1
  exact (Option.some.inj h1).symm

/-- The state after an entry has left both maps and its size the counter. -/
theorem drop (h : Rep g) {k : ChunkKey} {e : Entry} (hk : g.entries.get? k = some e) :
    Rep ({ g with
      entries := g.entries.erase k, lru := g.lru.erase e.lastAccessSeq }.release e.size) where
  inverse s k' := by
    simp only [Inner.release, FinMap.get?_erase]
    constructor
    · intro hs
      split at hs
      · cases hs
      · rename_i hne
        obtain ⟨e', he', hseq⟩ := (h.inverse s k').mp hs
        have hkk : k' ≠ k := by
          rintro rfl
          rw [hk] at he'
          cases he'
          exact hne hseq.symm
        exact ⟨e', by simp [hkk, he'], hseq⟩
    · rintro ⟨e', he', rfl⟩
      split at he'
      · cases he'
      · rename_i hkk
        have hne : e'.lastAccessSeq ≠ e.lastAccessSeq := fun hs => hkk (h.eq_of_seq he' hk hs)
        simp [hne, h.lru_of_entry he']
  seqBound s k' hs := by
    simp only [Inner.release, FinMap.get?_erase] at hs ⊢
    split at hs
    · cases hs
    · exact h.seqBound s k' hs
  bytes := by
    have := FinMap.total_erase Entry.size hk
    simp only [Inner.release, h.bytes]
    omega
  exact := by
    have := FinMap.le_total Entry.size hk
    simp only [Inner.release, h.exact, h.bytes, Bool.false_or, decide_eq_false_iff_not]
    omega

/-- The state after a new entry with the next sequence number. -/
theorem add (h : Rep g) {k : ChunkKey} (size : Nat) (hk : g.entries.get? k = none) :
    Rep { g with
      seq := g.seq + 1
      entries := g.entries.insert k ⟨size, g.seq + 1⟩
      lru := g.lru.insert (g.seq + 1) k
      bytes := g.bytes + size } where
  inverse s k' := by
    simp only [FinMap.get?_insert]
    constructor
    · intro hs
      split at hs
      · rename_i hseq
        cases hs
        exact ⟨⟨size, g.seq + 1⟩, by simp, hseq.symm⟩
      · obtain ⟨e, he, hseq⟩ := (h.inverse s k').mp hs
        have hne : k' ≠ k := by
          rintro rfl
          rw [hk] at he
          cases he
        exact ⟨e, by simp [hne, he], hseq⟩
    · rintro ⟨e, he, rfl⟩
      split at he
      · rename_i hkk
        cases he
        simp [hkk]
      · have hle := h.seqBound _ _ (h.lru_of_entry he)
        have hne : e.lastAccessSeq ≠ g.seq + 1 := by omega
        simp [hne, h.lru_of_entry he]
  seqBound s k' hs := by
    simp only [FinMap.get?_insert] at hs ⊢
    split at hs
    · omega
    · have := h.seqBound s k' hs
      omega
  bytes := by
    simp only [FinMap.total_insert_of_none Entry.size _ hk, h.bytes]
    omega
  exact := h.exact

theorem insertEntry (h : Rep g) (k : ChunkKey) (size : Nat) : Rep (g.insertEntry k size) := by
  cases hk : g.entries.get? k with
  | none => simpa [Inner.insertEntry, hk] using h.add size hk
  | some e =>
      have hadd := (h.drop hk).add (k := k) size (by simp [Inner.release])
      simpa [Inner.insertEntry, hk, Inner.release, FinMap.insert_erase_self] using hadd

/-- To touch an entry is to drop it and to add it again. -/
theorem touchLru_eq (h : Rep g) {k : ChunkKey} {e : Entry} (hk : g.entries.get? k = some e) :
    g.touchLru k = (true,
      let dropped := { g with
        entries := g.entries.erase k, lru := g.lru.erase e.lastAccessSeq }.release e.size
      { dropped with
        seq := dropped.seq + 1
        entries := dropped.entries.insert k ⟨e.size, dropped.seq + 1⟩
        lru := dropped.lru.insert (dropped.seq + 1) k
        bytes := dropped.bytes + e.size }) := by
  have hle : e.size ≤ g.bytes := by
    rw [h.bytes]
    exact FinMap.le_total Entry.size hk
  have hbytes : g.bytes - e.size + e.size = g.bytes := by omega
  have hexact : decide (g.bytes < e.size) = false := by simpa using hle
  simp [Inner.touchLru, hk, Inner.release, FinMap.insert_erase_self, hbytes, hexact]

theorem touchLru (h : Rep g) (k : ChunkKey) : Rep (g.touchLru k).2 := by
  cases hk : g.entries.get? k with
  | none => simpa [Inner.touchLru, hk] using h
  | some e =>
      rw [h.touchLru_eq hk]
      exact (h.drop hk).add e.size (by simp [Inner.release])

theorem entry_of_dropEntry {k : ChunkKey} {size : Nat} {g' : Inner}
    (hd : g.dropEntry k = some (size, g')) :
    ∃ e, g.entries.get? k = some e ∧ g' = { g with
      entries := g.entries.erase k, lru := g.lru.erase e.lastAccessSeq }.release e.size := by
  cases hk : g.entries.get? k with
  | none => simp [Inner.dropEntry, hk] at hd
  | some e =>
      simp only [Inner.dropEntry, hk, Option.some.injEq, Prod.mk.injEq] at hd
      exact ⟨e, rfl, hd.2.symm⟩

theorem dropEntry (h : Rep g) {k : ChunkKey} {size : Nat} {g' : Inner}
    (hd : g.dropEntry k = some (size, g')) : Rep g' := by
  obtain ⟨e, hk, rfl⟩ := entry_of_dropEntry hd
  exact h.drop hk

theorem reconcile (h : Rep g) (dropped reclaimed : Nat) (missing : List ChunkKey) :
    Rep (g.reconcile dropped reclaimed missing).2.2 := by
  induction missing generalizing g dropped reclaimed with
  | nil => exact h
  | cons k missing ih =>
      simp only [Inner.reconcile]
      split
      · exact ih h _ _
      · rename_i hd
        exact ih (h.dropEntry hd) _ _

/-- In a round of the loop the oldest pair always has its entry. -/
theorem evictOne (h : Rep g) {s : Nat} {k : ChunkKey} (hs : g.lru.get? s = some k) :
    Rep (g.evictOne s k).1 := by
  obtain ⟨e, he, rfl⟩ := (h.inverse s k).mp hs
  simpa [Inner.evictOne, he] using h.drop he

theorem oldest_get? {s : Nat} {k : ChunkKey} (ho : g.oldest = some (s, k)) :
    g.lru.get? s = some k := by
  unfold Inner.oldest at ho
  split at ho
  · cases ho
  · rename_i seq _
    cases hl : g.lru.get? seq with
    | none => simp [hl] at ho
    | some key =>
        simp only [hl, Option.map_some, Option.some.injEq, Prod.mk.injEq] at ho
        obtain ⟨rfl, rfl⟩ := ho
        exact hl

theorem evictLoop (h : Rep g) (maxBytes fuel : Nat) : Rep (g.evictLoop maxBytes fuel).1 := by
  induction fuel generalizing g with
  | zero => exact h
  | succ fuel ih =>
      simp only [Inner.evictLoop]
      split
      · split
        · exact h
        · rename_i s k ho
          exact ih (h.evictOne (oldest_get? ho))
      · exact h

theorem bytes_eq_zero (h : Rep g) (hlru : g.lru.keys = []) : g.bytes = 0 := by
  have hentries : g.entries = ∅ := by
    apply FinMap.eq_empty_of_get?
    intro k
    cases hk : g.entries.get? k with
    | none => rfl
    | some e =>
        have hmem := FinMap.mem_keys_iff.mpr ⟨k, h.lru_of_entry hk⟩
        simp [hlru] at hmem
  rw [h.bytes, hentries, FinMap.total_empty]

theorem oldest_eq_none (ho : g.oldest = none) : g.lru.keys = [] := by
  unfold Inner.oldest at ho
  split at ho
  · rename_i hmin
    exact List.min?_eq_none_iff.mp hmin
  · rename_i seq hmin
    obtain ⟨k, hk⟩ := FinMap.mem_keys_iff.mp (List.min?_mem hmin)
    simp [hk] at ho

/-- With one round for every pair in `lru` the loop ends within the budget. -/
theorem evictLoop_bytes_le (h : Rep g) (maxBytes fuel : Nat)
    (hfuel : g.lru.keys.length ≤ fuel) : (g.evictLoop maxBytes fuel).1.bytes ≤ maxBytes := by
  induction fuel generalizing g with
  | zero =>
      have hlru : g.lru.keys = [] := List.eq_nil_of_length_eq_zero (by omega)
      simp [Inner.evictLoop, h.bytes_eq_zero hlru]
  | succ fuel ih =>
      simp only [Inner.evictLoop]
      split
      · split
        · rename_i ho
          simp [h.bytes_eq_zero (oldest_eq_none ho)]
        · rename_i s k ho
          have hs := oldest_get? ho
          apply ih (h.evictOne hs)
          have hlru : (g.evictOne s k).1.lru = g.lru.erase s := by
            unfold Inner.evictOne
            dsimp only
            split <;> rfl
          have hmem : s ∈ g.lru.keys := FinMap.mem_keys_iff.mpr ⟨k, hs⟩
          have := List.length_pos_of_mem hmem
          rw [hlru, FinMap.keys_erase, List.length_erase_of_mem hmem]
          omega
      · simp only
        omega

theorem evictIfNeeded (h : Rep g) (maxBytes : Nat) : Rep (g.evictIfNeeded maxBytes).1 :=
  h.evictLoop maxBytes _

theorem evictIfNeeded_bytes_le (h : Rep g) (maxBytes : Nat) :
    (g.evictIfNeeded maxBytes).1.bytes ≤ maxBytes :=
  h.evictLoop_bytes_le maxBytes _ le_rfl

end Rep

namespace Inner

theorem insertEntry_get? (g : Inner) (k k' : ChunkKey) (size : Nat) :
    (g.insertEntry k size).entries.get? k' =
      if k' = k then some ⟨size, g.seq + 1⟩ else g.entries.get? k' := by
  have hentries : (g.insertEntry k size).entries = g.entries.insert k ⟨size, g.seq + 1⟩ := by
    unfold insertEntry
    dsimp only
    split <;> rfl
  rw [hentries, FinMap.get?_insert]

theorem evictOne_get? (g : Inner) (s : Nat) (k k' : ChunkKey) :
    (g.evictOne s k).1.entries.get? k' =
      if k' ∈ (g.evictOne s k).2 then none else g.entries.get? k' := by
  cases hk : g.entries.get? k with
  | none => simp [evictOne, hk]
  | some e => simp [evictOne, hk, release, FinMap.get?_erase]

/-- Eviction takes out its victims and nothing else. -/
theorem evictLoop_get? (g : Inner) (maxBytes fuel : Nat) (k : ChunkKey) :
    (g.evictLoop maxBytes fuel).1.entries.get? k =
      if k ∈ (g.evictLoop maxBytes fuel).2 then none else g.entries.get? k := by
  induction fuel generalizing g with
  | zero => simp [evictLoop]
  | succ fuel ih =>
      simp only [evictLoop]
      split
      · split
        · simp
        · rename_i s key _
          dsimp only
          rw [ih, evictOne_get?]
          simp only [List.mem_append]
          by_cases h1 : k ∈ (g.evictOne s key).2 <;> simp [h1]
      · simp

/-- Only keys of the index are evicted. -/
theorem evictLoop_mem (g : Inner) (maxBytes fuel : Nat) {k : ChunkKey}
    (h : k ∈ (g.evictLoop maxBytes fuel).2) : g.entries.get? k ≠ none := by
  induction fuel generalizing g with
  | zero => simp [evictLoop] at h
  | succ fuel ih =>
      simp only [evictLoop] at h
      split at h
      · split at h
        · simp at h
        · rename_i s key _
          rcases List.mem_append.mp h with hfirst | hrest
          · cases hkey : g.entries.get? key with
            | none => simp [evictOne, hkey] at hfirst
            | some e =>
                have hk : k = key := by simpa [evictOne, hkey] using hfirst
                simp [hk, hkey]
          · have hlater := ih _ hrest
            rw [evictOne_get?] at hlater
            split at hlater
            · exact absurd rfl hlater
            · exact hlater
      · simp at h

theorem dropEntry_entries {g g' : Inner} {k : ChunkKey} {size : Nat}
    (h : g.dropEntry k = some (size, g')) : g'.entries = g.entries.erase k := by
  unfold dropEntry at h
  split at h
  · cases h
  · cases h
    rfl

theorem dropEntry_bytes_le {g g' : Inner} {k : ChunkKey} {size : Nat}
    (h : g.dropEntry k = some (size, g')) : g'.bytes ≤ g.bytes := by
  unfold dropEntry at h
  split at h
  · cases h
  · cases h
    exact Nat.sub_le _ _

theorem dropEntry_eq_none {g : Inner} {k : ChunkKey} (h : g.dropEntry k = none) :
    g.entries.get? k = none := by
  unfold dropEntry at h
  split at h
  · assumption
  · cases h

theorem reconcile_get? (g : Inner) (dropped reclaimed : Nat) (missing : List ChunkKey)
    (k : ChunkKey) :
    (g.reconcile dropped reclaimed missing).2.2.entries.get? k =
      if k ∈ missing then none else g.entries.get? k := by
  induction missing generalizing g dropped reclaimed with
  | nil => simp [reconcile]
  | cons m missing ih =>
      simp only [reconcile, List.mem_cons]
      split
      · rename_i hd
        rw [ih]
        by_cases hkm : k = m
        · simp [hkm, dropEntry_eq_none hd]
        · simp [hkm]
      · rename_i hd
        rw [ih, dropEntry_entries hd, FinMap.get?_erase]
        by_cases hkm : k = m <;> simp [hkm]

theorem reconcile_bytes_le (g : Inner) (dropped reclaimed : Nat) (missing : List ChunkKey) :
    (g.reconcile dropped reclaimed missing).2.2.bytes ≤ g.bytes := by
  induction missing generalizing g dropped reclaimed with
  | nil => exact le_rfl
  | cons k missing ih =>
      simp only [reconcile]
      split
      · exact ih g _ _
      · rename_i hd
        exact (ih _ _ _).trans (dropEntry_bytes_le hd)

/-- Touching an entry keeps its size. -/
theorem touchLru_size (g : Inner) (k k' : ChunkKey) :
    ((g.touchLru k).2.entries.get? k').map Entry.size =
      (g.entries.get? k').map Entry.size := by
  unfold touchLru
  split
  · rfl
  · rename_i e he
    simp only [FinMap.get?_insert]
    split
    · rename_i hkk
      simp [hkk, he]
    · rfl

theorem clearKeys_get? (g : Inner) (keys : List ChunkKey) (k : ChunkKey) :
    (g.clearKeys keys).entries.get? k =
      if k ∈ keys then none else g.entries.get? k := by
  induction keys generalizing g with
  | nil => simp [clearKeys]
  | cons m keys ih =>
      simp only [clearKeys, List.mem_cons]
      split
      · rename_i hm
        rw [ih]
        by_cases hkm : k = m
        · simp [hkm, hm]
        · simp [hkm]
      · rw [ih]
        dsimp only
        rw [FinMap.get?_erase]
        by_cases hkm : k = m <;> simp [hkm]

theorem clearAll_entries (g : Inner) : g.clearAll.entries = ∅ := by
  apply FinMap.eq_empty_of_get?
  intro k
  simp only [clearAll, clearKeys_get?]
  split
  · rfl
  · rename_i hk
    exact FinMap.not_mem_keys_iff.mp hk

theorem clearKeys_saturated (g : Inner) (keys : List ChunkKey) :
    (g.clearKeys keys).saturated = g.saturated := by
  induction keys generalizing g with
  | nil => rfl
  | cons m keys ih =>
      simp only [clearKeys]
      split
      · exact ih g
      · exact ih _

end Inner

theorem Rep.clearAll {g : Inner} (h : Rep g) : Rep g.clearAll where
  inverse s k := by
    rw [Inner.clearAll_entries]
    simp [Inner.clearAll]
  seqBound s k hs := by simp [Inner.clearAll] at hs
  bytes := by rw [Inner.clearAll_entries]; rfl
  exact := (Inner.clearKeys_saturated g _).trans h.exact

end BlobCache.Cache
