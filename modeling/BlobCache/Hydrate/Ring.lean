import BlobCache.Conc.Run
import BlobCache.Hydrate.Coverage

/-!
The ring phase as a system: `run_ring_phase` sends every node its request of the
step, the nodes work through their requests side by side and in any order, and
the next step begins when all of them are done.

A pull that succeeds adds its chunk to what the node holds. Nothing here says
that the neighbour has the chunk: that it always has is what is shown.
-/

namespace BlobCache.Hydrate

open Conc

/-- A pull that was made: by whom, of whose shard, and the chunk. -/
structure Pulled (world : Nat) where
  receiver : Fin world
  source : Fin world
  chunk : ChunkSpec
  deriving DecidableEq

structure RingState (world : Nat) where
  step : Nat
  left : Fin world → List ChunkSpec
  holds : Fin world → List ChunkSpec
  pulls : List (Pulled world)

/-- One of the pulls of a node's request succeeds, or the coordinator has seen
all responses and goes on to the next step. -/
inductive RingLabel (world : Nat) where
  | pulled (recv : Fin world) (i : Nat)
  | barrier

variable (mount : String) (sorted : List BroadcastSource)

def RingState.init : RingState sorted.length where
  step := 1
  left recv := (ringBody mount sorted 1 recv).chunks
  holds recv := (sorted.get recv).chunks
  pulls := []

/-- The pull of `c`, which is the one at `i` of those that are left. -/
def RingState.pull {world : Nat} (s : RingState world) (recv : Fin world) (i : Nat)
    (c : ChunkSpec) : RingState world :=
  { s with
    left := Function.update s.left recv ((s.left recv).eraseIdx i)
    holds := Function.update s.holds recv (c :: s.holds recv)
    pulls := s.pulls ++ [⟨recv, sourceRank s.step recv, c⟩] }

def RingState.complete {world : Nat} (s : RingState world) : Bool :=
  (List.finRange world).all fun recv => (s.left recv).isEmpty

def RingState.next (s : RingState sorted.length) :
    RingLabel sorted.length → Option (RingState sorted.length)
  | .pulled recv i => (s.left recv)[i]?.map (s.pull recv i)
  | .barrier =>
      if s.complete ∧ s.step + 1 < sorted.length then
        some { s with
          step := s.step + 1
          left := fun recv => (ringBody mount sorted (s.step + 1) recv).chunks }
      else none

/-- The chunks of the shard of `src` that `recv` has pulled. -/
def RingState.pulledFrom {world : Nat} (s : RingState world) (recv src : Fin world) :
    List ChunkSpec :=
  (s.pulls.filter fun q => q.receiver = recv ∧ q.source = src).map (·.chunk)

def shard (src : Fin sorted.length) : List ChunkSpec := (sorted.get src).chunks

/-! ## Ranks -/

section Ranks

variable {world : Nat} (recv : Fin world)

theorem sourceRank_zero : sourceRank 0 recv = recv := by
  apply Fin.ext
  simp only [sourceRank, Nat.sub_zero, Nat.add_mod_right]
  exact Nat.mod_eq_of_lt recv.isLt

/-- What is to be pulled in a step is what the neighbour pulled in the step
before, or its own shard. -/
theorem sourceRank_prev {k : Nat} (hk : 1 ≤ k) (hkw : k < world) :
    sourceRank (k - 1) (prevRank recv) = sourceRank k recv := by
  have hlt := recv.isLt
  have hprev : (prevRank recv).val = if 1 ≤ recv.val then recv.val - 1 else recv + world - 1 :=
    sourceRank_val le_rfl (by omega) recv
  by_cases hone : k = 1
  · subst hone
    exact sourceRank_zero _
  · apply Fin.ext
    rw [sourceRank_val hk hkw, sourceRank_val (by omega) (by omega), hprev]
    split <;> split <;> split <;> omega

theorem sourceRank_inj {j k : Nat} (hj : 1 ≤ j) (hjw : j < world) (hk : 1 ≤ k) (hkw : k < world)
    (h : sourceRank j recv = sourceRank k recv) : j = k := by
  have hval := congrArg Fin.val h
  rw [sourceRank_val hj hjw, sourceRank_val hk hkw] at hval
  split at hval <;> split at hval <;> omega

/-- Every other rank is the source of a step. -/
theorem exists_step {src : Fin world} (hne : src ≠ recv) :
    ∃ k, 1 ≤ k ∧ k < world ∧ sourceRank k recv = src := by
  have hmem : src ∈ (List.finRange world).filter (· ≠ recv) := by simp [hne]
  rw [← (sourceRank_perm recv).mem_iff, List.mem_map] at hmem
  obtain ⟨k, hk, rfl⟩ := hmem
  rw [List.mem_range'_1] at hk
  exact ⟨k, hk.1, by omega, rfl⟩

end Ranks

/-! ## The invariant -/

theorem complete_iff {world : Nat} {s : RingState world} :
    s.complete = true ↔ ∀ recv, s.left recv = [] := by
  simp [RingState.complete]

variable {mount sorted}

theorem RingState.next_cases {s s' : RingState sorted.length} {l : RingLabel sorted.length}
    (h : s.next mount sorted l = some s') :
    (∃ recv i c, (s.left recv)[i]? = some c ∧ s' = s.pull recv i c) ∨
      ((∀ recv, s.left recv = []) ∧ s.step + 1 < sorted.length ∧
        s' = { s with
          step := s.step + 1
          left := fun recv => shard sorted (sourceRank (s.step + 1) recv) }) := by
  cases l with
  | pulled recv i =>
      obtain ⟨c, hc, rfl⟩ := Option.map_eq_some_iff.mp h
      exact .inl ⟨recv, i, c, hc, rfl⟩
  | barrier =>
      simp only [RingState.next] at h
      split at h
      · rename_i hcond
        cases h
        exact .inr ⟨complete_iff.mp hcond.1, hcond.2, rfl⟩
      · cases h

/-- What has been pulled, shard by shard, and that it is what the nodes hold
beyond their own shard. -/
structure RingInv (s : RingState sorted.length) : Prop where
  first : 1 ≤ s.step
  last : s.step < sorted.length
  past : ∀ recv j, 1 ≤ j → j < s.step →
    (s.pulledFrom recv (sourceRank j recv)).Perm (shard sorted (sourceRank j recv))
  now : ∀ recv, (s.pulledFrom recv (sourceRank s.step recv) ++ s.left recv).Perm
    (shard sorted (sourceRank s.step recv))
  future : ∀ recv src, (∀ j, 1 ≤ j → j ≤ s.step → src ≠ sourceRank j recv) →
    s.pulledFrom recv src = []
  holds : ∀ recv c, c ∈ s.holds recv ↔ c ∈ shard sorted recv ∨ ∃ src, c ∈ s.pulledFrom recv src

theorem pulledFrom_pull {s : RingState sorted.length} {recv : Fin sorted.length} {i : Nat}
    {c : ChunkSpec} (r src : Fin sorted.length) :
    (s.pull recv i c).pulledFrom r src =
      s.pulledFrom r src ++ if r = recv ∧ src = sourceRank s.step recv then [c] else [] := by
  simp only [RingState.pulledFrom, RingState.pull, List.filter_append, List.map_append]
  congr 1
  by_cases hq : r = recv ∧ src = sourceRank s.step recv
  · rw [if_pos hq, List.filter_cons_of_pos (by simp [hq.1, hq.2])]
    rfl
  · rw [if_neg hq, List.filter_cons_of_neg]
    · rfl
    · simp only [decide_eq_true_eq]
      rintro ⟨h1, h2⟩
      exact hq ⟨h1.symm, h2.symm⟩

theorem RingInv.init (hworld : 2 ≤ sorted.length) :
    RingInv (RingState.init mount sorted) where
  first := le_rfl
  last := hworld
  past recv j hj hlt := by
    change j < 1 at hlt
    omega
  now recv := List.Perm.refl _
  future recv src _ := rfl
  holds recv c := by simp [RingState.init, RingState.pulledFrom, shard]

theorem RingInv.pull {s : RingState sorted.length} (h : RingInv s) {recv : Fin sorted.length}
    {i : Nat} {c : ChunkSpec} (hc : (s.left recv)[i]? = some c) : RingInv (s.pull recv i c) where
  first := h.first
  last := h.last
  past r j hj hlt := by
    change j < s.step at hlt
    have hne : ¬(r = recv ∧ sourceRank j r = sourceRank s.step recv) := by
      rintro ⟨rfl, heq⟩
      have := sourceRank_inj r hj (hlt.trans h.last) h.first h.last heq
      omega
    rw [pulledFrom_pull, if_neg hne, List.append_nil]
    exact h.past r j hj hlt
  now r := by
    have hnow := h.now r
    change ((s.pull recv i c).pulledFrom r (sourceRank s.step r) ++ _).Perm
      (shard sorted (sourceRank s.step r))
    by_cases hr : r = recv
    · subst hr
      obtain ⟨hi, rfl⟩ := List.getElem?_eq_some_iff.mp hc
      rw [pulledFrom_pull, if_pos ⟨rfl, rfl⟩, List.append_assoc, List.singleton_append]
      refine List.Perm.trans (List.Perm.append_left _ ?_) hnow
      simp only [RingState.pull, Function.update_self]
      exact List.getElem_cons_eraseIdx_perm hi
    · rw [pulledFrom_pull, if_neg (fun hq => hr hq.1), List.append_nil]
      simpa only [RingState.pull, Function.update_of_ne hr] using hnow
  future r src hsrc := by
    have hne : ¬(r = recv ∧ src = sourceRank s.step recv) := by
      rintro ⟨rfl, heq⟩
      exact hsrc s.step h.first le_rfl heq
    rw [pulledFrom_pull, if_neg hne, List.append_nil]
    exact h.future r src hsrc
  holds r d := by
    simp only [pulledFrom_pull, List.mem_append]
    by_cases hr : r = recv
    · subst hr
      simp only [RingState.pull, Function.update_self, List.mem_cons, h.holds r d, true_and]
      constructor
      · rintro (rfl | hown | ⟨src, hsrc⟩)
        · exact .inr ⟨sourceRank s.step r, .inr (by simp)⟩
        · exact .inl hown
        · exact .inr ⟨src, .inl hsrc⟩
      · rintro (hown | ⟨src, hsrc | hsrc⟩)
        · exact .inr (.inl hown)
        · exact .inr (.inr ⟨src, hsrc⟩)
        · split at hsrc
          · exact .inl (List.mem_singleton.mp hsrc)
          · cases hsrc
    · simp [RingState.pull, h.holds r d, hr]

theorem RingInv.advance {s : RingState sorted.length} (h : RingInv s)
    (hall : ∀ recv, s.left recv = []) (hnext : s.step + 1 < sorted.length) :
    RingInv { s with
      step := s.step + 1
      left := fun recv => shard sorted (sourceRank (s.step + 1) recv) } where
  first := Nat.le_add_left 1 s.step
  last := hnext
  past recv j hj hlt := by
    rcases Nat.lt_succ_iff_lt_or_eq.mp hlt with hlt | rfl
    · exact h.past recv j hj hlt
    · have hnow := h.now recv
      rw [hall recv, List.append_nil] at hnow
      exact hnow
  now recv := by
    have hnone : s.pulledFrom recv (sourceRank (s.step + 1) recv) = [] := by
      apply h.future
      intro j hj hle heq
      have := sourceRank_inj recv (by omega) hnext hj (by omega) heq
      omega
    change (s.pulledFrom recv (sourceRank (s.step + 1) recv) ++ _).Perm _
    rw [hnone, List.nil_append]
  future recv src hsrc := h.future recv src fun j hj hle => hsrc j hj (Nat.le_succ_of_le hle)
  holds := h.holds

theorem ringInv_run (hworld : 2 ≤ sorted.length) {s : RingState sorted.length}
    (hrun : Run (RingState.next mount sorted) (fun _ _ => True) (.init mount sorted) s) :
    RingInv s := by
  apply Run.inv _ (RingInv.init hworld) hrun
  intro s l s' hinv _ hnext
  rcases RingState.next_cases hnext with ⟨recv, i, c, hc, rfl⟩ | ⟨hall, hlt, rfl⟩
  · exact hinv.pull hc
  · exact hinv.advance hall hlt

/-! ## What follows -/

/-- During a step a node holds the shards of the steps before. -/
theorem RingInv.holds_past {s : RingState sorted.length} (h : RingInv s)
    {recv : Fin sorted.length} {j : Nat} (hj : j < s.step) {c : ChunkSpec}
    (hc : c ∈ shard sorted (sourceRank j recv)) : c ∈ s.holds recv := by
  rw [h.holds]
  by_cases hzero : j = 0
  · subst hzero
    rw [sourceRank_zero] at hc
    exact .inl hc
  · exact .inr ⟨_, (h.past recv j (by omega) hj).mem_iff.mpr hc⟩

/-- The neighbour holds the shard that is asked for. -/
theorem RingInv.available {s : RingState sorted.length} (h : RingInv s)
    {recv : Fin sorted.length} {c : ChunkSpec}
    (hc : c ∈ shard sorted (sourceRank s.step recv)) : c ∈ s.holds (prevRank recv) := by
  rw [← sourceRank_prev recv h.first h.last] at hc
  have hfirst := h.first
  exact h.holds_past (by omega) hc

theorem RingInv.holds_complete {s : RingState sorted.length} (h : RingInv s)
    (hall : ∀ recv, s.left recv = []) (recv : Fin sorted.length) (c : ChunkSpec) :
    c ∈ s.holds recv ↔ ∃ j ≤ s.step, c ∈ shard sorted (sourceRank j recv) := by
  have hnow := h.now recv
  rw [hall recv, List.append_nil] at hnow
  constructor
  · intro hc
    rcases (h.holds recv c).mp hc with hown | ⟨src, hsrc⟩
    · exact ⟨0, Nat.zero_le _, by rwa [sourceRank_zero]⟩
    · by_contra hnot
      have hnone : s.pulledFrom recv src = [] := by
        apply h.future
        rintro j hj hle rfl
        rcases Nat.lt_or_eq_of_le hle with hlt | rfl
        · exact hnot ⟨j, hle, (h.past recv j hj hlt).mem_iff.mp hsrc⟩
        · exact hnot ⟨_, le_rfl, hnow.mem_iff.mp hsrc⟩
      rw [hnone] at hsrc
      cases hsrc
  · rintro ⟨j, hle, hc⟩
    rcases Nat.lt_or_eq_of_le hle with hlt | rfl
    · exact h.holds_past hlt hc
    · exact (h.holds recv c).mpr (.inr ⟨_, hnow.mem_iff.mpr hc⟩)

/-- After the last step every shard but the own one was pulled once. -/
theorem RingInv.pulled_once {s : RingState sorted.length} (h : RingInv s)
    (hall : ∀ recv, s.left recv = []) (hend : s.step = sorted.length - 1)
    (recv src : Fin sorted.length) :
    (s.pulledFrom recv src).Perm (if src = recv then [] else shard sorted src) := by
  have hlast := h.last
  split
  · rename_i hself
    subst hself
    rw [h.future src src]
    intro j hj hle heq
    exact sourceRank_ne hj (by omega) src heq.symm
  · rename_i hne
    obtain ⟨k, hk, hkw, rfl⟩ := exists_step recv hne
    rcases Nat.lt_or_eq_of_le (by omega : k ≤ s.step) with hlt | rfl
    · exact h.past recv k hk hlt
    · have hnow := h.now recv
      rwa [hall recv, List.append_nil] at hnow

/-- In every step of the ring the neighbour that a node is sent to holds what it
is sent for; after step `k` a node holds its own shard and those of the `k`
ranks before it, and after the last step all of them, each pulled once. -/
theorem ring_allgather (mount : String) (p : List BroadcastSource)
    (hids : (p.map (·.nodeId)).Nodup) (hworld : 2 ≤ p.length)
    (s : RingState (sortedPlan p).length)
    (hrun : Run (RingState.next mount (sortedPlan p)) (fun _ _ => True)
      (.init mount (sortedPlan p)) s) :
    (1 ≤ s.step ∧ s.step < (sortedPlan p).length) ∧
    (∀ recv holder, ((sortedPlan p).get holder).nodeId =
        (ringBody mount (sortedPlan p) s.step recv).prevNodeId →
      ∀ c ∈ (ringBody mount (sortedPlan p) s.step recv).chunks, c ∈ s.holds holder) ∧
    ((∀ recv, s.left recv = []) →
      (∀ recv c, c ∈ s.holds recv ↔
        ∃ j ≤ s.step, c ∈ shard (sortedPlan p) (sourceRank j recv)) ∧
      (s.step = (sortedPlan p).length - 1 → ∀ recv src,
        (∀ c ∈ shard (sortedPlan p) src, c ∈ s.holds recv) ∧
        (s.pulledFrom recv src).Perm (if src = recv then [] else shard (sortedPlan p) src))) := by
  have hperm := sortedPlan_perm p
  have hids' : ((sortedPlan p).map (·.nodeId)).Nodup := (hperm.map _).nodup_iff.mpr hids
  have hinv : RingInv s := ringInv_run (hperm.length_eq.symm ▸ hworld) hrun
  refine ⟨⟨hinv.first, hinv.last⟩, ?_, ?_⟩
  · intro recv holder hid c hc
    obtain rfl := (id_eq_iff hids' (prevRank recv) holder).mp hid
    exact hinv.available hc
  · intro hall
    refine ⟨hinv.holds_complete hall, ?_⟩
    intro hend recv src
    refine ⟨?_, hinv.pulled_once hall hend recv src⟩
    intro c hc
    rw [hinv.holds_complete hall]
    by_cases hself : src = recv
    · exact ⟨0, Nat.zero_le _, by rwa [sourceRank_zero, ← hself]⟩
    · obtain ⟨k, -, hkw, rfl⟩ := exists_step recv hself
      exact ⟨k, by omega, hc⟩

def threeNodes : List BroadcastSource :=
  [⟨"c", "http://c:1", none, [⟨"m", 8, 4⟩]⟩, ⟨"a", "http://a:1", none, [⟨"m", 0, 4⟩]⟩,
    ⟨"b", "http://b:1", none, [⟨"m", 4, 4⟩]⟩]

/-- Every node makes the first pull that is left to it. -/
def oneRound (sorted : List BroadcastSource) : List (RingLabel sorted.length) :=
  (List.finRange sorted.length).map fun recv => .pulled recv 0

theorem ring_allgather_of_three :
    ∃ s, Run (RingState.next "models" (sortedPlan threeNodes)) (fun _ _ => True)
        (.init "models" (sortedPlan threeNodes)) s ∧
      ∀ recv src, (∀ c ∈ shard (sortedPlan threeNodes) src, c ∈ s.holds recv) ∧
        (s.pulledFrom recv src).Perm
          (if src = recv then [] else shard (sortedPlan threeNodes) src) := by
  obtain ⟨s, hrun, hs⟩ := run_of_labels (RingState.next "models" (sortedPlan threeNodes))
    (.init "models" (sortedPlan threeNodes))
    (oneRound (sortedPlan threeNodes) ++ [.barrier] ++ oneRound (sortedPlan threeNodes))
    (fun s => s.complete && decide (s.step = (sortedPlan threeNodes).length - 1))
    (by decide +kernel)
  simp only [Bool.and_eq_true, decide_eq_true_eq] at hs
  obtain ⟨-, -, hend⟩ := ring_allgather "models" threeNodes (by decide) (by decide) s hrun
  exact ⟨s, hrun, (hend (complete_iff.mp hs.1)).2 hs.2⟩

end BlobCache.Hydrate
