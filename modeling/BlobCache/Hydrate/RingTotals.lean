import BlobCache.Hydrate.Accounting
import Mathlib.Algebra.Order.BigOperators.Group.List

/-!
The totals of the ring. `run_ring_phase` adds the answers of all steps to one
entry for each node. A loss is seen there when the fetched chunks of a node are
fewer than its assigned ones, and it is reported when the entry has an error. The
error of a task that could not be joined is counted for a node of the name
`unknown`, so that it reports nothing.
-/

namespace BlobCache.Hydrate

variable (mount : String) (sorted : List BroadcastSource)

/-- The results of a step in the order of the ranks. -/
theorem stepResults_eq (k : Nat) (ends : Nat → RingEnd) :
    stepResults mount sorted k ends =
      (List.finRange sorted.length).map fun recv =>
        ringResult (sorted.get recv).nodeId (ends recv) := by
  apply List.ext_getElem
  · simp [stepResults, ringStep]
  · intro i hi hi'
    simp [stepResults, ringStep]

/-- The answers that a step adds to the totals of a node. -/
def countedIn (steps : Nat → StepEnd) (id : String) (k : Nat) : List RingStepResponse :=
  match steps k with
  | .joined ends => ((stepResults mount sorted k ends).filter fun x => x.1 = id).map Prod.snd
  | _ => []

theorem PerPod.get?_add (pods : PerPod) (result : String × RingStepResponse) (id : String) :
    (pods.add result).get? id =
      if result.1 = id then (pods.get? id).map (·.add result.2) else pods.get? id := by
  unfold PerPod.add
  cases hget : pods.get? result.1 with
  | none =>
      simp only
      split
      · rename_i hid
        rw [← hid, hget, Option.map_none]
      · rfl
  | some ps =>
      have hkey : (ps.add result.2).nodeId = result.1 := pods.keyed result.1 ps hget
      simp only [Table.get?_insert, hkey]
      by_cases hid : result.1 = id
      · rw [if_pos hid.symm, if_pos hid, ← hid, hget, Option.map_some]
      · rw [if_neg (Ne.symm hid), if_neg hid]

/-- The fold over the results changes the entry of a node by what is counted for it. -/
theorem get?_foldl_add (results : List (String × RingStepResponse)) (pods : PerPod)
    (id : String) :
    (results.foldl PerPod.add pods).get? id =
      (pods.get? id).map fun ps =>
        ((results.filter fun x => x.1 = id).map Prod.snd).foldl PerPeerStats.add ps := by
  induction results generalizing pods with
  | nil => simp
  | cons x results ih =>
      rw [List.foldl_cons, ih, PerPod.get?_add, List.filter_cons]
      by_cases hid : x.1 = id
      · simp only [hid, if_true, decide_true, Option.map_map, List.map_cons, List.foldl_cons]
        rfl
      · simp only [hid, if_false, decide_false, Bool.false_eq_true]

/-- A step that runs out of time. -/
def StepEnd.timesOut : StepEnd → Bool
  | .joined _ => false
  | _ => true

/-- A task that was joined. -/
def RingEnd.isJoined : RingEnd → Bool
  | .joinFailed _ => false
  | _ => true

/-- Without a timeout the totals are those of all steps. -/
theorem get?_ringLoop {steps : Nat → StepEnd} {ks : List Nat}
    (hks : ∀ k ∈ ks, (steps k).timesOut = false) (pods : PerPod) (id : String) :
    (ringLoop mount sorted steps ks pods).get? id =
      (pods.get? id).map fun ps =>
        (ks.flatMap (countedIn mount sorted steps id)).foldl PerPeerStats.add ps := by
  induction ks generalizing pods with
  | nil => simp [ringLoop]
  | cons k ks ih =>
      have hrest : ∀ k ∈ ks, (steps k).timesOut = false :=
        fun k' hk' => hks k' (List.mem_cons_of_mem k hk')
      have hk := hks k List.mem_cons_self
      cases hstep : steps k with
      | timeoutBefore | timeoutDuring =>
          rw [hstep] at hk
          cases hk
      | joined ends =>
          rw [ringLoop, hstep]
          simp only
          rw [ih hrest, get?_foldl_add, Option.map_map, List.flatMap_cons]
          congr 1
          funext ps
          rw [Function.comp_apply, List.foldl_append, countedIn, hstep]

/-- A timeout is an error of every node. -/
theorem errors_of_timeout {steps : Nat → StepEnd} {ks : List Nat}
    (hks : ∃ k ∈ ks, (steps k).timesOut = true) (pods : PerPod) {id : String}
    {ps : PerPeerStats} (hget : (ringLoop mount sorted steps ks pods).get? id = some ps) :
    ps.errors ≠ [] := by
  have hpush : ∀ {pods : PerPod} {e : String}, (pods.pushAll e).get? id = some ps →
      ps.errors ≠ [] := by
    intro pods e hpushed
    rw [PerPod.pushAll, Table.get?_modify] at hpushed
    obtain ⟨ps', -, rfl⟩ := Option.map_eq_some_iff.mp hpushed
    simp
  induction ks generalizing pods with
  | nil =>
      obtain ⟨k, hk, -⟩ := hks
      cases hk
  | cons k ks ih =>
      rw [ringLoop] at hget
      cases hstep : steps k with
      | timeoutBefore | timeoutDuring =>
          rw [hstep] at hget
          exact hpush hget
      | joined ends =>
          rw [hstep] at hget
          refine ih ?_ _ hget
          obtain ⟨k', hk', htime⟩ := hks
          rcases List.mem_cons.mp hk' with rfl | hk'
          · rw [hstep] at htime
            cases htime
          · exact ⟨k', hk', htime⟩

/-! ## The entry of one node -/

theorem get?_setup (id : String) :
    (PerPod.setup sorted).get? id =
      if id ∈ sorted.map (·.nodeId) then
        some ⟨id, assigned (others sorted id), 0, 0, []⟩
      else none := by
  have hfold : ∀ (l : List BroadcastSource) (pods : PerPod),
      (l.foldl (fun pods s =>
        pods.insert ⟨s.nodeId, assigned (others sorted s.nodeId), 0, 0, []⟩) pods).get? id =
        if id ∈ l.map (·.nodeId) then some ⟨id, assigned (others sorted id), 0, 0, []⟩
        else pods.get? id := by
    intro l
    induction l with
    | nil => simp
    | cons s l ih =>
        intro pods
        rw [List.foldl_cons, ih, List.map_cons, Table.get?_insert]
        by_cases hlater : id ∈ l.map (·.nodeId)
        · rw [if_pos hlater, if_pos (List.mem_cons_of_mem _ hlater)]
        · rw [if_neg hlater]
          by_cases hid : id = s.nodeId
          · rw [if_pos hid, if_pos (by rw [hid]; exact List.mem_cons_self), hid]
          · rw [if_neg hid, if_neg (by simp only [List.mem_cons, not_or]; exact ⟨hid, hlater⟩)]
  exact hfold sorted Table.empty

theorem foldl_add_ids (rs : List RingStepResponse) (ps : PerPeerStats) :
    (rs.foldl PerPeerStats.add ps).nodeId = ps.nodeId ∧
      (rs.foldl PerPeerStats.add ps).assignedChunks = ps.assignedChunks := by
  induction rs generalizing ps with
  | nil => exact ⟨rfl, rfl⟩
  | cons r rs ih => exact ih (ps.add r)

/-- The sum does not wrap around as long as it fits. -/
theorem foldl_add_fetched (rs : List RingStepResponse) (ps : PerPeerStats)
    (hfits : ps.fetched + (rs.map (·.fetched)).sum < 2 ^ 64) :
    (rs.foldl PerPeerStats.add ps).fetched = ps.fetched + (rs.map (·.fetched)).sum := by
  induction rs generalizing ps with
  | nil => rfl
  | cons r rs ih =>
      rw [List.map_cons, List.sum_cons] at hfits ⊢
      have hstep : (ps.add r).fetched = ps.fetched + r.fetched :=
        Nat.mod_eq_of_lt (by omega)
      rw [List.foldl_cons, ih (ps.add r) (by omega), hstep]
      omega

theorem foldl_add_errors (rs : List RingStepResponse) (ps : PerPeerStats) :
    (rs.foldl PerPeerStats.add ps).errors = [] ↔
      ps.errors = [] ∧ ∀ r ∈ rs, r.errors = [] := by
  induction rs generalizing ps with
  | nil => simp
  | cons r rs ih =>
      rw [List.foldl_cons, ih, List.forall_mem_cons]
      constructor
      · rintro ⟨hstep, hrest⟩
        obtain ⟨hr, hps⟩ := @pushErrors_eq_nil String id r.errors ps.errors hstep
        exact ⟨hps, hr, hrest⟩
      · rintro ⟨hps, hr, hrest⟩
        refine ⟨?_, hrest⟩
        rw [PerPeerStats.add, hps, hr]
        rfl

/-! ## What a node is owed -/

/-- The steps of the phase. -/
def ringSteps : List Nat := List.range' 1 (sorted.length - 1)

/-- A rank is asked for the chunks of all other ranks. -/
theorem sum_asked (recv : Fin sorted.length) :
    ((ringSteps sorted).map fun k => (ringBody mount sorted k recv).chunks.length).sum =
      ((((List.finRange sorted.length).filter (· ≠ recv)).map sorted.get).map
        (·.chunks.length)).sum := by
  have hperm := ((sourceRank_perm recv).map fun j => (sorted.get j).chunks.length).sum_eq
  rw [List.map_map] at hperm ⊢
  exact hperm

/-- That is no less than the chunks of the other nodes. -/
theorem assigned_le_asked (recv : Fin sorted.length) :
    assigned (others sorted (sorted.get recv).nodeId) ≤
      ((ringSteps sorted).map fun k => (ringBody mount sorted k recv).chunks.length).sum := by
  have hothers : (others sorted (sorted.get recv).nodeId).Sublist
      (((List.finRange sorted.length).filter (· ≠ recv)).map sorted.get) := by
    have hall : others sorted (sorted.get recv).nodeId =
        (((List.finRange sorted.length).filter fun j =>
          (sorted.get j).nodeId ≠ (sorted.get recv).nodeId).map sorted.get) := by
      calc others sorted (sorted.get recv).nodeId
          = ((List.finRange sorted.length).map sorted.get).filter
              fun s => s.nodeId ≠ (sorted.get recv).nodeId := by rw [List.map_get_finRange, others]
        _ = _ := by rw [List.filter_map]; rfl
    rw [hall]
    apply List.Sublist.map
    apply List.monotone_filter_right
    intro j hj
    simp only [ne_eq, decide_eq_true_eq] at hj ⊢
    rintro rfl
    exact hj rfl
  rw [sum_asked]
  exact (hothers.map _).sum_le_sum fun _ _ => Nat.zero_le _

/-- Every worker that leaves out a chunk reports an error. -/
def Honest (steps : Nat → StepEnd) : Prop :=
  ∀ k ends, steps k = .joined ends → ∀ (recv : Fin sorted.length) r, ends recv = .answered r →
    r.fetched < (ringBody mount sorted k recv).chunks.length → r.errors ≠ []

/-- Every task that has something to fetch is joined. -/
def Joined (steps : Nat → StepEnd) : Prop :=
  ∀ k ∈ ringSteps sorted, ∀ ends, steps k = .joined ends →
    ∀ recv : Fin sorted.length, (ends recv).isJoined = false →
      (ringBody mount sorted k recv).chunks = []

/-- All that is counted for a node. -/
def counted (steps : Nat → StepEnd) (id : String) : List RingStepResponse :=
  (ringSteps sorted).flatMap (countedIn mount sorted steps id)

/-- What the workers of a node say that they fetched fits into the counter. -/
def CountsFit (steps : Nat → StepEnd) : Prop :=
  ∀ id ∈ sorted.map (·.nodeId), ((counted mount sorted steps id).map (·.fetched)).sum < 2 ^ 64

variable {mount sorted} {steps : Nat → StepEnd}

theorem mem_countedIn {k : Nat} {ends : Nat → RingEnd} (hstep : steps k = .joined ends)
    (recv : Fin sorted.length) {r : RingStepResponse}
    (hr : ringResult (sorted.get recv).nodeId (ends recv) = ((sorted.get recv).nodeId, r)) :
    r ∈ countedIn mount sorted steps (sorted.get recv).nodeId k := by
  rw [countedIn, hstep]
  refine List.mem_map.mpr
    ⟨((sorted.get recv).nodeId, r), List.mem_filter.mpr ⟨?_, decide_eq_true rfl⟩, rfl⟩
  rw [stepResults_eq]
  exact List.mem_map.mpr ⟨recv, List.mem_finRange recv, hr⟩

/-- A step adds at least the chunks that it asks a rank for, if it adds no error. -/
theorem asked_le_countedIn (hhonest : Honest mount sorted steps)
    (hjoined : Joined mount sorted steps) {k : Nat} (hk : k ∈ ringSteps sorted)
    (htime : (steps k).timesOut = false) (recv : Fin sorted.length)
    (hnil : ∀ r ∈ countedIn mount sorted steps (sorted.get recv).nodeId k, r.errors = []) :
    (ringBody mount sorted k recv).chunks.length ≤
      ((countedIn mount sorted steps (sorted.get recv).nodeId k).map (·.fetched)).sum := by
  cases hstep : steps k with
  | timeoutBefore | timeoutDuring =>
      rw [hstep] at htime
      cases htime
  | joined ends =>
      cases hend : ends recv with
      | answered r =>
          have hmem : r ∈ countedIn mount sorted steps (sorted.get recv).nodeId k :=
            mem_countedIn hstep recv (by rw [hend]; rfl)
          have hfetched : (ringBody mount sorted k recv).chunks.length ≤ r.fetched := by
            by_contra hless
            exact hhonest k ends hstep recv r hend (Nat.lt_of_not_le hless) (hnil r hmem)
          exact hfetched.trans (List.le_sum_of_mem (List.mem_map_of_mem hmem))
      | decodeFailed cause =>
          have hmem : ⟨0, 0, ["decode: " ++ cause]⟩ ∈
              countedIn mount sorted steps (sorted.get recv).nodeId k :=
            mem_countedIn hstep recv (by rw [hend]; rfl)
          cases hnil _ hmem
      | postFailed cause =>
          have hmem : ⟨0, 0, ["post: " ++ cause]⟩ ∈
              countedIn mount sorted steps (sorted.get recv).nodeId k :=
            mem_countedIn hstep recv (by rw [hend]; rfl)
          cases hnil _ hmem
      | joinFailed cause =>
          rw [hjoined k hk ends hstep recv (by rw [hend]; rfl)]
          exact Nat.zero_le _

theorem sum_counted (id : String) :
    ((counted mount sorted steps id).map (·.fetched)).sum =
      ((ringSteps sorted).map fun k =>
        ((countedIn mount sorted steps id k).map (·.fetched)).sum).sum := by
  rw [counted, List.map_flatMap, List.flatMap, List.sum_flatten, List.map_map]
  rfl

/-- The entry of a node after the phase. -/
theorem get?_final (htime : ∀ k ∈ ringSteps sorted, (steps k).timesOut = false) {id : String}
    {ps : PerPeerStats}
    (hget : (ringLoop mount sorted steps (ringSteps sorted) (.setup sorted)).get? id = some ps) :
    id ∈ sorted.map (·.nodeId) ∧
      ps = (counted mount sorted steps id).foldl PerPeerStats.add
        ⟨id, assigned (others sorted id), 0, 0, []⟩ := by
  rw [get?_ringLoop mount sorted htime, get?_setup] at hget
  split at hget
  · rename_i hid
    exact ⟨hid, (Option.some.inj hget).symm⟩
  · cases hget

/-- Every loss of the phase is reported. -/
def LossesReported (mount : String) (plan : List BroadcastSource) (steps : Nat → StepEnd) :
    Prop :=
  ∀ stats ∈ runRingPhase mount plan steps, stats.fetched < stats.assignedChunks →
    stats.errors ≠ []

theorem lossesReported_iff {plan : List BroadcastSource} :
    LossesReported mount plan steps ↔
      (2 ≤ (sortedPlan plan).length → ∀ id ps,
        (ringLoop mount (sortedPlan plan) steps (ringSteps (sortedPlan plan))
          (.setup (sortedPlan plan))).get? id = some ps →
        ps.fetched < ps.assignedChunks → ps.errors ≠ []) := by
  unfold LossesReported runRingPhase
  dsimp only
  by_cases hsmall : (sortedPlan plan).length < 2
  · rw [if_pos hsmall]
    constructor
    · intro _ hlarge
      omega
    · intro _ stats hmem
      cases hmem
  · rw [if_neg hsmall]
    constructor
    · intro h _ id ps hget
      have hkey : ps.nodeId = id := Table.keyed _ id ps hget
      apply h ps
      rw [List.mem_insertionSort, Table.mem_values_iff, hkey]
      exact hget
    · intro h stats hmem
      rw [List.mem_insertionSort, Table.mem_values_iff] at hmem
      exact h (by omega) _ stats hmem

/-- A node to which all requests were answered without an error is owed nothing. -/
theorem reported_of_joined (hhonest : Honest mount sorted steps)
    (hjoined : Joined mount sorted steps) (hfit : CountsFit mount sorted steps)
    (htime : ∀ k ∈ ringSteps sorted, (steps k).timesOut = false) {id : String}
    {ps : PerPeerStats}
    (hget : (ringLoop mount sorted steps (ringSteps sorted) (.setup sorted)).get? id = some ps)
    (hless : ps.fetched < ps.assignedChunks) : ps.errors ≠ [] := by
  obtain ⟨hid, rfl⟩ := get?_final htime hget
  intro hnil
  have hsum := foldl_add_fetched (counted mount sorted steps id)
    ⟨id, assigned (others sorted id), 0, 0, []⟩ (by simpa using hfit id hid)
  rw [hsum, (foldl_add_ids _ _).2] at hless
  obtain ⟨-, hclean⟩ := (foldl_add_errors _ _).mp hnil
  obtain ⟨source, hsource, rfl⟩ := List.mem_map.mp hid
  obtain ⟨recv, rfl⟩ := List.mem_iff_get.mp hsource
  have hasked := assigned_le_asked mount sorted recv
  have hcounted : ((ringSteps sorted).map fun k =>
        (ringBody mount sorted k recv).chunks.length).sum ≤
      ((counted mount sorted steps (sorted.get recv).nodeId).map (·.fetched)).sum := by
    rw [sum_counted]
    apply List.sum_le_sum
    intro k hk
    apply asked_le_countedIn hhonest hjoined hk (htime k hk)
    intro r hr
    exact hclean r (List.mem_flatMap.mpr ⟨k, hk, hr⟩)
  simp only [Nat.zero_add] at hless
  omega

/-! ## A task that is not joined -/

/-- Nothing runs out of time, and a worker whose task is joined has fetched what it was asked
for. -/
def Exact (mount : String) (sorted : List BroadcastSource) (steps : Nat → StepEnd) : Prop :=
  ∀ k ∈ ringSteps sorted, ∃ ends, steps k = .joined ends ∧ ∀ recv : Fin sorted.length,
    (ends recv).isJoined = true → ∃ r, ends recv = .answered r ∧
      r.fetched = (ringBody mount sorted k recv).chunks.length ∧ r.errors = []

/-- The result of a task that is not joined is counted for no node of the plan. -/
theorem countedIn_eq (hids : (sorted.map (·.nodeId)).Nodup)
    (hunknown : "unknown" ∉ sorted.map (·.nodeId)) {k : Nat} {ends : Nat → RingEnd}
    (hstep : steps k = .joined ends) (recv : Fin sorted.length) :
    countedIn mount sorted steps (sorted.get recv).nodeId k =
      if (ends recv).isJoined then [(ringResult (sorted.get recv).nodeId (ends recv)).2]
      else [] := by
  have hcounts : ∀ j : Fin sorted.length,
      (ringResult (sorted.get j).nodeId (ends j)).1 = (sorted.get recv).nodeId ↔
        j = recv ∧ (ends j).isJoined = true := by
    intro j
    cases ends j with
    | joinFailed cause =>
        have hname : "unknown" ≠ (sorted.get recv).nodeId := by
          intro heq
          exact hunknown (heq ▸ List.mem_map_of_mem (List.get_mem sorted recv))
        exact iff_of_false hname fun h => Bool.false_ne_true h.2
    | _ => exact (id_eq_iff hids recv j).trans (and_iff_left rfl).symm
  have hfilter : ((List.finRange sorted.length).filter fun j =>
      (ringResult (sorted.get j).nodeId (ends j)).1 = (sorted.get recv).nodeId) =
        if (ends recv).isJoined then [recv] else [] := by
    cases hend : (ends recv).isJoined with
    | true =>
        rw [if_pos rfl, ← filter_finRange_eq recv]
        apply List.filter_congr
        intro j _
        apply decide_eq_decide.mpr
        rw [hcounts]
        constructor
        · rintro ⟨rfl, -⟩
          rfl
        · rintro rfl
          exact ⟨rfl, hend⟩
    | false =>
        rw [if_neg Bool.false_ne_true, List.filter_eq_nil_iff]
        intro j _ hj
        obtain ⟨rfl, hjoin⟩ := (hcounts j).mp (of_decide_eq_true hj)
        rw [hend] at hjoin
        cases hjoin
  rw [countedIn, hstep]
  simp only
  rw [stepResults_eq, List.filter_map, List.map_map]
  have hsame := congrArg (List.map fun j : Fin sorted.length =>
    (ringResult (sorted.get j).nodeId (ends j)).2) hfilter
  refine hsame.trans ?_
  split <;> rfl

section ExactPhase

variable (hids : (sorted.map (·.nodeId)).Nodup) (hunknown : "unknown" ∉ sorted.map (·.nodeId))
  (hexact : Exact mount sorted steps)

include hids hunknown hexact

/-- What a step adds when the workers are exact. -/
theorem countedIn_exact {k : Nat} (hk : k ∈ ringSteps sorted) {ends : Nat → RingEnd}
    (hstep : steps k = .joined ends) (recv : Fin sorted.length) :
    ((countedIn mount sorted steps (sorted.get recv).nodeId k).map (·.fetched)).sum =
        (if (ends recv).isJoined then (ringBody mount sorted k recv).chunks.length else 0) ∧
      ∀ r ∈ countedIn mount sorted steps (sorted.get recv).nodeId k, r.errors = [] := by
  obtain ⟨ends', hstep', hworkers⟩ := hexact k hk
  rw [hstep] at hstep'
  cases hstep'
  rw [countedIn_eq hids hunknown hstep]
  cases hend : (ends recv).isJoined with
  | true =>
      obtain ⟨r, hr, hfetched, herrors⟩ := hworkers recv hend
      rw [if_pos rfl, if_pos rfl, hr]
      simp [ringResult, hfetched, herrors]
  | false => simp

theorem countedIn_le_asked {k : Nat} (hk : k ∈ ringSteps sorted) (recv : Fin sorted.length) :
    ((countedIn mount sorted steps (sorted.get recv).nodeId k).map (·.fetched)).sum ≤
      (ringBody mount sorted k recv).chunks.length := by
  obtain ⟨ends, hstep, -⟩ := hexact k hk
  rw [(countedIn_exact hids hunknown hexact hk hstep recv).1]
  split
  · exact le_rfl
  · exact Nat.zero_le _

theorem counted_le_assigned (recv : Fin sorted.length) :
    ((counted mount sorted steps (sorted.get recv).nodeId).map (·.fetched)).sum ≤
      assigned (others sorted (sorted.get recv).nodeId) := by
  rw [sum_counted, assigned, others_eq_map hids, ← sum_asked mount sorted recv]
  apply List.sum_le_sum
  intro k hk
  exact countedIn_le_asked hids hunknown hexact hk recv

theorem countsFit_of_exact (hsize : assigned sorted < 2 ^ 64) :
    CountsFit mount sorted steps := by
  intro id hid
  obtain ⟨source, hsource, rfl⟩ := List.mem_map.mp hid
  obtain ⟨recv, rfl⟩ := List.mem_iff_get.mp hsource
  have hothers : assigned (others sorted (sorted.get recv).nodeId) ≤ assigned sorted :=
    (List.filter_sublist.map _).sum_le_sum fun _ _ => Nat.zero_le _
  exact ((counted_le_assigned hids hunknown hexact recv).trans hothers).trans_lt hsize

/-- A task with chunks that is not joined is a loss that nobody reports. -/
theorem joined_of_reported (hsize : assigned sorted < 2 ^ 64)
    (hreported : ∀ id ps,
      (ringLoop mount sorted steps (ringSteps sorted) (.setup sorted)).get? id = some ps →
      ps.fetched < ps.assignedChunks → ps.errors ≠ []) : Joined mount sorted steps := by
  intro k hk ends hstep recv hlost
  by_contra hchunks
  have htime : ∀ k ∈ ringSteps sorted, (steps k).timesOut = false := by
    intro k hk
    obtain ⟨ends, hstep, -⟩ := hexact k hk
    rw [hstep]
    rfl
  have hid : (sorted.get recv).nodeId ∈ sorted.map (·.nodeId) :=
    List.mem_map_of_mem (List.get_mem sorted recv)
  have hfit := countsFit_of_exact hids hunknown hexact hsize _ hid
  -- the entry of the node: fewer chunks than assigned, and no error
  have hget := get?_ringLoop mount sorted htime (.setup sorted) (sorted.get recv).nodeId
  rw [get?_setup, if_pos hid, Option.map_some] at hget
  refine hreported _ _ hget ?_ ?_
  · rw [foldl_add_fetched _ _ (by simpa [counted] using hfit), (foldl_add_ids _ _).2]
    simp only [Nat.zero_add]
    change ((counted mount sorted steps (sorted.get recv).nodeId).map (·.fetched)).sum < _
    rw [sum_counted, assigned, others_eq_map hids, ← sum_asked mount sorted recv]
    apply List.sum_lt_sum
    · intro k hk
      exact countedIn_le_asked hids hunknown hexact hk recv
    · refine ⟨k, hk, ?_⟩
      rw [(countedIn_exact hids hunknown hexact hk hstep recv).1, hlost]
      exact List.length_pos_iff.mpr hchunks
  · rw [foldl_add_errors]
    refine ⟨rfl, ?_⟩
    intro r hr
    obtain ⟨k', hk', hr⟩ := List.mem_flatMap.mp hr
    obtain ⟨ends', hstep', -⟩ := hexact k' hk'
    exact (countedIn_exact hids hunknown hexact hk' hstep' recv).2 r hr

end ExactPhase

/-- Every loss of a ring is reported when some step runs out of time, or when every task that
has something to fetch is joined and no counter wraps around. Where the workers are exact and
no node has the name that lost tasks are counted for, the tasks have to be joined. -/
theorem ring_losses_reported (mount : String) (plan : List BroadcastSource)
    (steps : Nat → StepEnd) (hhonest : Honest mount (sortedPlan plan) steps) :
    ((∃ k ∈ ringSteps (sortedPlan plan), (steps k).timesOut = true) ∨
        Joined mount (sortedPlan plan) steps ∧ CountsFit mount (sortedPlan plan) steps →
      LossesReported mount plan steps) ∧
    ((plan.map (·.nodeId)).Nodup → "unknown" ∉ plan.map (·.nodeId) → assigned plan < 2 ^ 64 →
      2 ≤ plan.length → Exact mount (sortedPlan plan) steps →
      (LossesReported mount plan steps ↔ Joined mount (sortedPlan plan) steps)) := by
  have hsufficient : (∃ k ∈ ringSteps (sortedPlan plan), (steps k).timesOut = true) ∨
      Joined mount (sortedPlan plan) steps ∧ CountsFit mount (sortedPlan plan) steps →
      LossesReported mount plan steps := by
    intro hcond
    rw [lossesReported_iff]
    intro _ id ps hget hless
    by_cases htime : ∃ k ∈ ringSteps (sortedPlan plan), (steps k).timesOut = true
    · exact errors_of_timeout mount (sortedPlan plan) htime _ hget
    · obtain ⟨hjoined, hfit⟩ := hcond.resolve_left htime
      apply reported_of_joined hhonest hjoined hfit ?_ hget hless
      intro k hk
      rw [← Bool.not_eq_true]
      intro hout
      exact htime ⟨k, hk, hout⟩
  refine ⟨hsufficient, ?_⟩
  intro hids hunknown hsize hworld hexact
  have hperm := sortedPlan_perm plan
  have hids' : ((sortedPlan plan).map (·.nodeId)).Nodup := (hperm.map _).nodup_iff.mpr hids
  have hunknown' : "unknown" ∉ (sortedPlan plan).map (·.nodeId) := by
    rw [(hperm.map _).mem_iff]
    exact hunknown
  have hsize' : assigned (sortedPlan plan) < 2 ^ 64 := by
    rw [assigned, (hperm.map _).sum_eq]
    exact hsize
  constructor
  · intro hreported
    apply joined_of_reported hids' hunknown' hexact hsize'
    exact lossesReported_iff.mp hreported (hperm.length_eq ▸ hworld)
  · intro hjoined
    exact hsufficient (.inr ⟨hjoined, countsFit_of_exact hids' hunknown' hexact hsize'⟩)

section Sample

/-- Two nodes with one chunk each. -/
def pairPlan : List BroadcastSource :=
  [⟨"a", "http://a:1", none, [⟨"x", 0, 4⟩]⟩, ⟨"b", "http://b:1", none, [⟨"x", 4, 4⟩]⟩]

/-- The node `b` fetches its chunk; `first` is the end of the task for `a`. -/
def pairSteps (first : RingEnd) (_ : Nat) : StepEnd :=
  .joined fun i => if i = 0 then first else .answered ⟨1, 4, []⟩

theorem pair_chunks (k : Nat) (recv : Fin (sortedPlan pairPlan).length) :
    (ringBody "m" (sortedPlan pairPlan) k recv).chunks.length = 1 := by
  have hone : ∀ s ∈ sortedPlan pairPlan, s.chunks.length = 1 := by decide +kernel
  exact hone _ (List.get_mem _ _)

theorem pair_honest {first : RingEnd}
    (hfirst : ∀ r, first = .answered r → 1 ≤ r.fetched ∨ r.errors ≠ []) :
    Honest "m" (sortedPlan pairPlan) (pairSteps first) := by
  rintro k ends ⟨⟩ recv r hr
  rw [pair_chunks]
  intro hless
  dsimp only at hr
  split at hr
  · exact (hfirst r hr).resolve_left (by omega)
  · cases hr
    exact absurd hless (by decide)

theorem ring_losses_reported_of_two :
    LossesReported "m" pairPlan (pairSteps (.answered ⟨1, 4, []⟩)) := by
  apply (ring_losses_reported "m" pairPlan _ (pair_honest ?_)).1
  · refine .inr ⟨?_, by unfold CountsFit; decide +kernel⟩
    rintro k hk ends ⟨⟩ recv hlost
    dsimp only at hlost
    split at hlost <;> cases hlost
  · rintro r ⟨⟩
    exact .inl le_rfl

/-- The task for `a` is lost, and the totals say that `a` misses a chunk without an error. -/
theorem lost_ring_task_unreported :
    Honest "m" (sortedPlan pairPlan) (pairSteps (.joinFailed "task 1 panicked")) ∧
      runRingPhase "m" pairPlan (pairSteps (.joinFailed "task 1 panicked")) =
        [⟨"a", 1, 0, 0, []⟩, ⟨"b", 1, 1, 4, []⟩] ∧
      ¬LossesReported "m" pairPlan (pairSteps (.joinFailed "task 1 panicked")) := by
  have hrun : runRingPhase "m" pairPlan (pairSteps (.joinFailed "task 1 panicked")) =
      [⟨"a", 1, 0, 0, []⟩, ⟨"b", 1, 1, 4, []⟩] := by decide +kernel
  refine ⟨pair_honest nofun, hrun, ?_⟩
  intro hreported
  refine hreported ⟨"a", 1, 0, 0, []⟩ ?_ (by decide) rfl
  rw [hrun]
  exact List.mem_cons_self

end Sample

end BlobCache.Hydrate
