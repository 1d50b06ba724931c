import BlobCache.Data.Lru
import BlobCache.Fetcher.State

/-!
`PeerLru` keeps the most recently used chunks that fit into its bytes. Its map puts
the latest entry first, as the LRU cache of the library does; the entries are compared
here as a list in the order of their last use.

The bytes are counted beside the map, in a `u64` that saturates. As long as the chunks
that a `put` brings together have at most `u64::MAX` bytes, the count is exact. Above
that it falls short of what is stored: it is then still within the capacity, and only
the least recent entries go, but what stays may be more than fits.
-/

namespace BlobCache.PeerLru

open Lru

/-- The entries by their last use, the least recent first. -/
def order (lru : PeerLru) : List (ChunkKey × Bytes) := ofMap lru.inner

/-- The calls into a `PeerLru`. -/
inductive Op where
  | get (key : ChunkKey)
  | put (key : ChunkKey) (val : Bytes)
  | clear

def apply (lru : PeerLru) : Op → PeerLru
  | .get key => (lru.get key).2
  | .put key val => lru.put key val
  | .clear => lru.clear

def run (lru : PeerLru) : List Op → PeerLru
  | [] => lru
  | op :: ops => (lru.apply op).run ops

/-- What a `put` brings together, before entries go. -/
def joined (lru : PeerLru) (key : ChunkKey) (val : Bytes) : List (ChunkKey × Bytes) :=
  erase lru.order key ++ [(key, val)]

/-! ## The operations on the order -/

/-- A lookup answers from the entries and moves the one it finds to the end. -/
theorem get_order (lru : PeerLru) (key : ChunkKey) :
    (lru.get key).1 = get? lru.order key ∧ (lru.get key).2.order = touch lru.order key := by
  rw [order, touch, get?_ofMap, PeerLru.get]
  cases lru.inner.get? key with
  | none => exact ⟨rfl, rfl⟩
  | some val => exact ⟨rfl, ofMap_insert lru.inner key val⟩

theorem popLru_eq_none {lru : PeerLru} (h : lru.order = []) : lru.popLru = none := by
  have hkeys := keys_ofMap lru.inner
  rw [← order, h, List.map_nil] at hkeys
  rw [popLru, List.reverse_eq_nil_iff.mp hkeys.symm]
  rfl

/-- `pop_lru` takes the least recent entry. -/
theorem popLru_eq_some {lru : PeerLru} {x : ChunkKey × Bytes} {l : List (ChunkKey × Bytes)}
    (h : lru.order = x :: l) : ∃ inner, lru.popLru = some (x.2, inner) ∧ ofMap inner = l := by
  have hnodup := nodup_ofMap lru.inner
  have hkeys := keys_ofMap lru.inner
  have hlast : lru.inner.keys.getLast? = some x.1 := by
    rw [← List.head?_reverse, ← hkeys, ← order, h]
    rfl
  rw [← order, h] at hnodup
  have hget : lru.inner.get? x.1 = some x.2 := by
    rw [← get?_ofMap, ← order, h]
    exact get?_of_mem hnodup (List.mem_cons_self ..)
  refine ⟨lru.inner.erase x.1, ?_, ?_⟩
  · rw [popLru, hlast]
    simp only [hget, Option.map_some]
  · rw [ofMap_erase, ← order, h]
    exact erase_append_cons (a := []) hnodup

/-- The loop of `put` lets entries go by the counter, and it needs a turn for each. -/
theorem shrink_eq {lru : PeerLru} {fuel : Nat} (hfuel : lru.order.length ≤ fuel) :
    ((lru.shrink fuel).order, (lru.shrink fuel).bytes) =
        evict List.length lru.capBytes lru.bytes lru.order ∧
      (lru.shrink fuel).capBytes = lru.capBytes := by
  induction fuel generalizing lru with
  | zero =>
      have hnil : lru.order = [] := List.eq_nil_of_length_eq_zero (by omega)
      rw [shrink, hnil]
      exact ⟨rfl, rfl⟩
  | succ fuel ih =>
      rw [shrink]
      cases horder : lru.order with
      | nil =>
          rw [popLru_eq_none horder]
          split <;> exact ⟨by rw [horder]; rfl, rfl⟩
      | cons x l =>
          rw [evict]
          split
          · obtain ⟨inner, hpop, hinner⟩ := popLru_eq_some horder
            rw [hpop]
            have hlen : (ofMap inner).length ≤ fuel := by
              rw [hinner]
              rw [horder, List.length_cons] at hfuel
              omega
            rw [← hinner]
            exact @ih { lru with inner := inner, bytes := lru.bytes - x.2.length } hlen
          · exact ⟨by rw [horder], rfl⟩

/-- The counter of `put` without an old entry of the key. -/
def kept (lru : PeerLru) (key : ChunkKey) : Nat :=
  match lru.inner.get? key with
  | some prev => lru.bytes - prev.length
  | none => lru.bytes

theorem put_of_lt {lru : PeerLru} {key : ChunkKey} {val : Bytes}
    (h : lru.capBytes < val.length) : lru.put key val = lru :=
  if_pos h

theorem put_eq {lru : PeerLru} {key : ChunkKey} {val : Bytes} (h : val.length ≤ lru.capBytes) :
    ((lru.put key val).order, (lru.put key val).bytes) =
        evict List.length lru.capBytes (saturatingAdd (lru.kept key) val.length)
          (lru.joined key val) ∧
      (lru.put key val).capBytes = lru.capBytes := by
  let next : PeerLru := { lru with
    inner := lru.inner.insert key val, bytes := saturatingAdd (lru.kept key) val.length }
  have hput : lru.put key val = next.shrink next.inner.keys.length := if_neg (by omega)
  have horder : next.order = lru.joined key val := ofMap_insert lru.inner key val
  have hlen : next.order.length ≤ next.inner.keys.length := by
    have hkeys := congrArg List.length (keys_ofMap next.inner)
    rw [List.length_map, List.length_reverse] at hkeys
    exact hkeys.le
  have hshrink := shrink_eq hlen
  rw [horder] at hshrink
  rw [hput]
  exact hshrink

theorem apply_capBytes (lru : PeerLru) (op : Op) : (lru.apply op).capBytes = lru.capBytes := by
  cases op with
  | get key =>
      rw [apply, PeerLru.get]
      split <;> rfl
  | put key val =>
      rcases Nat.lt_or_ge lru.capBytes val.length with hlt | hle
      · rw [apply, put_of_lt hlt]
      · exact (put_eq hle).2
  | clear => rfl

/-! ## The count -/

/-- The count is within the capacity and does not exceed what is stored. -/
structure Bounded (lru : PeerLru) : Prop where
  counted : lru.bytes ≤ total List.length lru.order
  capped : lru.bytes ≤ lru.capBytes

def Exact (lru : PeerLru) : Prop := lru.bytes = total List.length lru.order

theorem exists_prev (lru : PeerLru) (key : ChunkKey) :
    ∃ n, lru.kept key = lru.bytes - n ∧
      total List.length (erase lru.order key) + n = total List.length lru.order := by
  rw [kept, order]
  cases hkey : lru.inner.get? key with
  | none =>
      rw [← get?_ofMap] at hkey
      rw [erase_eq_self (get?_eq_none.mp hkey)]
      exact ⟨0, rfl, rfl⟩
  | some prev => exact ⟨prev.length, rfl, total_erase List.length hkey⟩

theorem total_joined (lru : PeerLru) (key : ChunkKey) (val : Bytes) :
    total List.length (lru.joined key val) =
      total List.length (erase lru.order key) + val.length := by
  rw [joined, total_append, total_cons, total_nil, Nat.add_zero]

/-- The count of `put` does not exceed what is brought together. -/
theorem counter_le {lru : PeerLru} (h : lru.bytes ≤ total List.length lru.order)
    (key : ChunkKey) (val : Bytes) :
    saturatingAdd (lru.kept key) val.length ≤ total List.length (lru.joined key val) := by
  obtain ⟨n, hkept, htotal⟩ := lru.exists_prev key
  rw [total_joined, hkept, saturatingAdd]
  omega

theorem counter_eq {lru : PeerLru} (h : lru.Exact) {key : ChunkKey} {val : Bytes}
    (hfits : total List.length (lru.joined key val) ≤ u64Max) :
    saturatingAdd (lru.kept key) val.length = total List.length (lru.joined key val) := by
  obtain ⟨n, hkept, htotal⟩ := lru.exists_prev key
  unfold Exact at h
  rw [total_joined] at hfits
  rw [total_joined, hkept, saturatingAdd]
  omega

theorem get_total (lru : PeerLru) (key : ChunkKey) :
    total List.length (lru.get key).2.order = total List.length lru.order := by
  rw [(lru.get_order key).2, touch]
  cases hkey : get? lru.order key with
  | none => rfl
  | some val =>
      rw [order, get?_ofMap] at hkey
      rw [total_append, total_cons, total_nil, Nat.add_zero]
      exact total_erase List.length hkey

theorem get_bytes (lru : PeerLru) (key : ChunkKey) : (lru.get key).2.bytes = lru.bytes := by
  rw [PeerLru.get]
  split <;> rfl

/-- Whatever has been counted, the new value stays and only the least recent go. -/
theorem Bounded.put_suffix {lru : PeerLru} (h : lru.Bounded) {key : ChunkKey} {val : Bytes}
    (hval : val.length ≤ lru.capBytes) :
    (lru.put key val).order <:+ lru.joined key val ∧ (key, val) ∈ (lru.put key val).order := by
  let left := evict List.length lru.capBytes (saturatingAdd (lru.kept key) val.length)
    (lru.joined key val)
  have horder : (lru.put key val).order = left.1 := congrArg Prod.fst (put_eq hval).1
  have hlast : [(key, val)] <:+ left.1 := suffix_evict (counter_le h.counted key val) hval
  rw [horder]
  exact ⟨evict_suffix _ _, hlast.subset (List.mem_singleton_self _)⟩

theorem Bounded.apply {lru : PeerLru} (h : lru.Bounded) (op : Op) : (lru.apply op).Bounded := by
  cases op with
  | get key =>
      constructor
      · change (lru.get key).2.bytes ≤ total List.length (lru.get key).2.order
        rw [get_bytes, get_total]
        exact h.counted
      · rw [apply_capBytes]
        exact (lru.get_bytes key).trans_le h.capped
  | put key val =>
      change (lru.put key val).Bounded
      rcases Nat.lt_or_ge lru.capBytes val.length with hlt | hle
      · rw [put_of_lt hlt]
        exact h
      · obtain ⟨hput, hcap⟩ := @put_eq lru key val hle
        have hcounter := counter_le h.counted key val
        have hevict := @evict_counter_le _ _ _ lru.capBytes _ _ hcounter
        rw [← hput] at hevict
        exact ⟨hevict.1, hevict.2.trans_eq hcap.symm⟩
  | clear => exact ⟨Nat.zero_le _, Nat.zero_le _⟩

theorem run_bounded (capBytes : Nat) (ops : List Op) : ((new capBytes).run ops).Bounded := by
  have hstart : (new capBytes).Bounded := ⟨Nat.zero_le _, Nat.zero_le _⟩
  generalize new capBytes = lru at hstart
  induction ops generalizing lru with
  | nil => exact hstart
  | cons op ops ih => exact ih (lru.apply op) (hstart.apply op)

theorem run_capBytes (lru : PeerLru) (ops : List Op) : (lru.run ops).capBytes = lru.capBytes := by
  induction ops generalizing lru with
  | nil => rfl
  | cons op ops ih => exact (ih (lru.apply op)).trans (lru.apply_capBytes op)

/-! ## When the count is exact -/

/-- What a `put` that is not refused brings together can be counted in a `u64`. -/
def Op.Counts (lru : PeerLru) : Op → Prop
  | .put key val =>
      val.length ≤ lru.capBytes → total List.length (lru.joined key val) ≤ u64Max
  | _ => True

/-- Every call counts, or everything is cleared after it. -/
def RunCounts : PeerLru → List Op → Prop
  | _, [] => True
  | lru, op :: ops => (op.Counts lru ∨ .clear ∈ ops) ∧ RunCounts (lru.apply op) ops

/-- A `put` into an exact count leaves what fits. -/
theorem Exact.put_fit {lru : PeerLru} (h : lru.Exact) {key : ChunkKey} {val : Bytes}
    (hval : val.length ≤ lru.capBytes)
    (hfits : total List.length (lru.joined key val) ≤ u64Max) :
    (lru.put key val).order = fit List.length lru.capBytes (lru.joined key val) ∧
      (lru.put key val).Exact := by
  have hput := (@put_eq lru key val hval).1
  rw [counter_eq h hfits, evict_eq_fit, Prod.mk.injEq] at hput
  exact ⟨hput.1, hput.2.trans (congrArg _ hput.1.symm)⟩

theorem Exact.apply {lru : PeerLru} (h : lru.Exact) {op : Op} (hop : op.Counts lru) :
    (lru.apply op).Exact := by
  cases op with
  | get key =>
      change (lru.get key).2.bytes = total List.length (lru.get key).2.order
      rw [get_bytes, get_total]
      exact h
  | put key val =>
      change (lru.put key val).Exact
      rcases Nat.lt_or_ge lru.capBytes val.length with hlt | hle
      · rw [put_of_lt hlt]
        exact h
      · exact (h.put_fit hle (hop hle)).2
  | clear => rfl

/-- A `clear` makes up for everything that was counted before it. -/
theorem run_exact {lru : PeerLru} {ops : List Op} (h : lru.Exact ∨ .clear ∈ ops)
    (hops : RunCounts lru ops) : (lru.run ops).Exact := by
  induction ops generalizing lru with
  | nil =>
      rcases h with hexact | hclear
      · exact hexact
      · cases hclear
  | cons op ops ih =>
      refine ih ?_ hops.2
      rcases hops.1 with hop | hlater
      · rcases h with hexact | hclear
        · exact .inl (hexact.apply hop)
        · rcases List.mem_cons.mp hclear with rfl | hlater
          · exact .inl rfl
          · exact .inr hlater
      · exact .inr hlater

/-- The chunks that an exact LRU of half the range brings together can be counted. -/
theorem Exact.counts {lru : PeerLru} (h : lru.Exact) (hbounded : lru.Bounded)
    (hcap : 2 * lru.capBytes ≤ u64Max) (op : Op) : op.Counts lru := by
  cases op with
  | put key val =>
      intro hval
      obtain ⟨n, -, htotal⟩ := lru.exists_prev key
      have hcapped := hbounded.capped
      unfold Exact at h
      rw [total_joined]
      omega
  | get key => exact trivial
  | clear => exact trivial

theorem runCounts_of_half {lru : PeerLru} (h : lru.Exact) (hbounded : lru.Bounded)
    (hcap : 2 * lru.capBytes ≤ u64Max) (ops : List Op) : RunCounts lru ops := by
  induction ops generalizing lru with
  | nil => exact trivial
  | cons op ops ih =>
      have hop := h.counts hbounded hcap op
      refine ⟨.inl hop, ih (h.apply hop) (hbounded.apply op) ?_⟩
      rw [apply_capBytes]
      exact hcap

/-- Over every sequence of calls the count stays within the capacity, a chunk that is too
long changes nothing, and every other one stays while only the least recent go. As long as
what is brought together can be counted the count is exact and what stays is the longest
end of the order that fits; up to half the range of the count that is always so. -/
theorem byte_bounded (capBytes : Nat) (ops : List Op) :
    let lru := (new capBytes).run ops
    lru.bytes ≤ capBytes ∧
    (∀ key val, capBytes < val.length → lru.put key val = lru) ∧
    (∀ key val, val.length ≤ capBytes →
      (lru.put key val).order <:+ lru.joined key val ∧ (key, val) ∈ (lru.put key val).order) ∧
    (RunCounts (new capBytes) ops →
      lru.bytes = total List.length lru.order ∧
      ∀ key val, val.length ≤ capBytes → total List.length (lru.joined key val) ≤ u64Max →
        total List.length (lru.put key val).order ≤ capBytes ∧
        ∀ u, u <:+ lru.joined key val → total List.length u ≤ capBytes →
          u <:+ (lru.put key val).order) ∧
    (2 * capBytes ≤ u64Max → RunCounts (new capBytes) ops ∧
      ∀ key val, val.length ≤ capBytes → total List.length (lru.joined key val) ≤ u64Max) := by
  intro lru
  have hcap : lru.capBytes = capBytes := run_capBytes _ ops
  have hbounded : lru.Bounded := run_bounded capBytes ops
  have hstart : (new capBytes).Exact := rfl
  rw [← hcap]
  refine ⟨hbounded.capped, fun key val => put_of_lt, fun key val => hbounded.put_suffix, ?_, ?_⟩
  · intro hops
    rw [hcap] at hops
    have hexact : lru.Exact := run_exact (.inl hstart) hops
    refine ⟨hexact, ?_⟩
    intro key val hval hfits
    rw [(hexact.put_fit hval hfits).1]
    exact ⟨total_fit_le _, fun u => suffix_fit⟩
  · intro hhalf
    have hops : RunCounts (new capBytes) ops :=
      runCounts_of_half hstart (run_bounded capBytes []) (hcap ▸ hhalf) ops
    have hexact : lru.Exact := run_exact (.inl hstart) hops
    rw [hcap]
    refine ⟨hops, ?_⟩
    intro key val hval
    exact hexact.counts hbounded hhalf (.put key val) (hcap.symm ▸ hval)

/-- The third chunk does not fit; the second goes, since the first has been read again. -/
theorem byte_bounded_of_reread :
    let chunk (i : Nat) : ChunkKey := ⟨"m", "b", i⟩
    let lru := (new 3).run [.put (chunk 0) [1, 2], .put (chunk 1) [3], .get (chunk 0)]
    lru.bytes = 3 ∧ (lru.put (chunk 2) [4]).order = [(chunk 0, [1, 2]), (chunk 2, [4])] ∧
      [(chunk 0, [1, 2]), (chunk 2, [4])] <:+ (lru.put (chunk 2) [4]).order := by
  intro chunk lru
  obtain ⟨-, -, -, hexact, hhalf⟩ := byte_bounded 3
    [.put (chunk 0) [1, 2], .put (chunk 1) [3], .get (chunk 0)]
  obtain ⟨hops, hcounts⟩ := hhalf (by decide)
  refine ⟨by decide +kernel, by decide +kernel, ?_⟩
  apply ((hexact hops).2 (chunk 2) [4] (by decide) (hcounts _ _ (by decide))).2
  · exact ⟨[(chunk 1, [3])], by decide +kernel⟩
  · decide

/-! ## Beyond the range of the count -/

theorem run_append (lru : PeerLru) (ops ops' : List Op) :
    lru.run (ops ++ ops') = (lru.run ops).run ops' := by
  induction ops generalizing lru with
  | nil => rfl
  | cons op ops ih => exact ih (lru.apply op)

/-- Nothing goes from an LRU of the largest capacity. -/
theorem put_order_of_max {lru : PeerLru} (hcap : lru.capBytes = u64Max) {key : ChunkKey}
    {val : Bytes} (hval : val.length ≤ u64Max) :
    (lru.put key val).order = lru.joined key val := by
  have hput := (@put_eq lru key val (hcap.symm ▸ hval)).1
  have hcounter : ¬ lru.capBytes < saturatingAdd (lru.kept key) val.length := by
    rw [hcap, saturatingAdd]
    omega
  cases hjoined : lru.joined key val with
  | nil => exact absurd hjoined (by simp [joined])
  | cons x l =>
      rw [hjoined, evict, if_neg hcounter] at hput
      exact congrArg Prod.fst hput

theorem fill_order {val : Bytes} (hval : val.length ≤ u64Max) (n : Nat) :
    ((new u64Max).run ((List.range n).map fun i => .put ⟨"m", "b", i⟩ val)).order =
      (List.range n).map fun i => (⟨"m", "b", i⟩, val) := by
  induction n with
  | zero => rfl
  | succ n ih =>
      rw [List.range_succ, List.map_append, List.map_append, run_append]
      change (PeerLru.put _ _ val).order = _
      rw [put_order_of_max (run_capBytes _ _) hval, joined, ih, erase_eq_self]
      · rfl
      · intro x hx
        obtain ⟨i, hi, rfl⟩ := List.mem_map.mp hx
        have hlt := List.mem_range.mp hi
        intro heq
        have hoffset : i = n := congrArg ChunkKey.offset heq
        omega

/-- Handles to one buffer under so many keys that their bytes cannot be counted. -/
theorem fill_saturates {val : Bytes} (hval : val.length ≤ u64Max) {n : Nat}
    (hn : u64Max < n * val.length) :
    let lru := (new u64Max).run ((List.range n).map fun i => .put ⟨"m", "b", i⟩ val)
    lru.bytes ≠ total List.length lru.order ∧ lru.capBytes < total List.length lru.order := by
  intro lru
  have htotal : total List.length lru.order = n * val.length := by
    rw [fill_order hval n, total, List.map_map]
    change ((List.range n).map fun _ => val.length).sum = n * val.length
    rw [List.map_const', List.sum_replicate_nat, List.length_range]
  have hcap : lru.capBytes = u64Max := run_capBytes _ _
  have hbytes : lru.bytes ≤ u64Max := hcap ▸ (run_bounded u64Max _).capped
  rw [htotal, hcap]
  exact ⟨by omega, hn⟩

/-- A buffer of 2 ^ 40 bytes under 2 ^ 24 keys: more than the capacity, and more than
the count says. -/
theorem count_saturates :
    let val : Bytes := List.replicate (2 ^ 40) 0
    let lru := (new u64Max).run ((List.range (2 ^ 24)).map fun i => .put ⟨"m", "b", i⟩ val)
    lru.bytes ≠ total List.length lru.order ∧ lru.capBytes < total List.length lru.order := by
  intro val
  have hval : val.length = 2 ^ 40 := List.length_replicate
  have hle : val.length ≤ u64Max := hval.trans_le (by decide)
  have hn : u64Max < 2 ^ 24 * val.length := by
    rw [hval]
    decide
  exact fill_saturates hle hn

end BlobCache.PeerLru
