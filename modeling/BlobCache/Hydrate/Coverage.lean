import Mathlib.Data.List.FinRange
import Mathlib.Data.Multiset.AddSub
import BlobCache.Hydrate.Plan

/-!
The buckets, the broadcast and the ring describe one and the same assignment:
each chunk has one owner, and every other node is asked to pull it once, from
somebody else.
-/

namespace BlobCache.Hydrate

/-! ## The buckets -/

theorem buckets_append (n : Nat) (chunks : List ChunkSpec) (c : ChunkSpec) :
    buckets n (chunks ++ [c]) =
      (buckets n chunks).modify (chunks.length % n) (· ++ [c]) := by
  simp [buckets, List.zipIdx_append]

theorem buckets_length (n : Nat) (chunks : List ChunkSpec) : (buckets n chunks).length = n := by
  induction chunks using List.reverseRecOn with
  | nil => simp [buckets]
  | append_singleton chunks c ih => rw [buckets_append, List.length_modify, ih]

/-- The bucket of a target holds every `n`-th chunk, in order. -/
theorem buckets_get? {n j : Nat} (hj : j < n) (chunks : List ChunkSpec) :
    (buckets n chunks)[j]? =
      some ((chunks.zipIdx.filter fun ci => ci.2 % n = j).map Prod.fst) := by
  induction chunks using List.reverseRecOn with
  | nil => simp [buckets, hj]
  | append_singleton chunks c ih =>
      rw [buckets_append, List.getElem?_modify, ih, List.zipIdx_append, List.filter_append,
        List.map_append]
      by_cases hmod : chunks.length % n = j
      · simp [hmod]
      · simp [hmod]

/-- Adding to one list of a list of lists. -/
theorem flatten_modify_perm {α : Type} {l : List (List α)} {i : Nat} (hi : i < l.length) (a : α) :
    (l.modify i (· ++ [a])).flatten.Perm (l.flatten ++ [a]) := by
  induction l generalizing i with
  | nil => simp at hi
  | cons x l ih =>
      cases i with
      | zero =>
          simp only [List.modify_zero_cons, List.flatten_cons, List.append_assoc]
          exact List.perm_append_comm.append_left x
      | succ i =>
          simp only [List.modify_succ_cons, List.flatten_cons, List.append_assoc]
          exact (ih (Nat.lt_of_succ_lt_succ hi)).append_left x

theorem buckets_perm {n : Nat} (hn : 0 < n) (chunks : List ChunkSpec) :
    (buckets n chunks).flatten.Perm chunks := by
  induction chunks using List.reverseRecOn with
  | nil => simp [buckets]
  | append_singleton chunks c ih =>
      rw [buckets_append]
      have hlt : chunks.length % n < (buckets n chunks).length := by
        rw [buckets_length]
        exact Nat.mod_lt _ hn
      exact (flatten_modify_perm hlt c).trans (ih.append_right [c])

theorem succ_div_mod {n : Nat} (hn : 0 < n) (m : Nat) :
    (m % n + 1 < n ∧ (m + 1) / n = m / n ∧ (m + 1) % n = m % n + 1) ∨
      (m % n + 1 = n ∧ (m + 1) / n = m / n + 1 ∧ (m + 1) % n = 0) := by
  have hm := Nat.mod_add_div m n
  have hlt := Nat.mod_lt m hn
  by_cases hlast : m % n + 1 < n
  · exact .inl ⟨hlast, (Nat.div_mod_unique hn).mpr ⟨by omega, hlast⟩⟩
  · have hnext : 0 + n * (m / n + 1) = m + 1 := by
      rw [Nat.mul_add]
      omega
    exact .inr ⟨by omega, (Nat.div_mod_unique hn).mpr ⟨hnext, hn⟩⟩

/-- The first buckets have one chunk more when the chunks do not come out even. -/
theorem bucket_size {n : Nat} (hn : 0 < n) (chunks : List ChunkSpec) {j : Nat} (hj : j < n)
    {b : List ChunkSpec} (hb : (buckets n chunks)[j]? = some b) :
    b.length = chunks.length / n + if j < chunks.length % n then 1 else 0 := by
  induction chunks using List.reverseRecOn generalizing b with
  | nil =>
      rw [buckets_get? hj] at hb
      simp [← Option.some.inj hb]
  | append_singleton chunks c ih =>
      rw [buckets_append, List.getElem?_modify] at hb
      obtain ⟨b', hb', rfl⟩ := Option.map_eq_some_iff.mp hb
      have hlen := ih hb'
      rw [List.length_append, List.length_singleton]
      rcases succ_div_mod hn chunks.length with ⟨hlast, hdiv, hmod⟩ | ⟨hlast, hdiv, hmod⟩
      · rw [hdiv, hmod]
        split
        · rename_i heq
          rw [if_neg (by omega)] at hlen
          rw [List.length_append, if_pos (by omega), hlen]
          rfl
        · rename_i hne
          rw [hlen]
          by_cases hjm : j < chunks.length % n
          · rw [if_pos hjm, if_pos (by omega)]
          · rw [if_neg hjm, if_neg (by omega)]
      · rw [hdiv, hmod, if_neg (Nat.not_lt_zero j)]
        split
        · rename_i heq
          rw [if_neg (by omega)] at hlen
          rw [List.length_append, hlen]
          rfl
        · rename_i hne
          rw [hlen, if_pos (by omega)]

/-- No two buckets differ by more than one chunk. -/
theorem buckets_even {n : Nat} (hn : 0 < n) (chunks : List ChunkSpec) {b b' : List ChunkSpec}
    (hb : b ∈ buckets n chunks) (hb' : b' ∈ buckets n chunks) : b.length ≤ b'.length + 1 := by
  obtain ⟨j, hj, hget⟩ := List.mem_iff_getElem.mp hb
  obtain ⟨j', hj', hget'⟩ := List.mem_iff_getElem.mp hb'
  rw [buckets_length] at hj hj'
  rw [bucket_size hn chunks hj (List.getElem?_eq_some_iff.mpr ⟨_, hget⟩),
    bucket_size hn chunks hj' (List.getElem?_eq_some_iff.mpr ⟨_, hget'⟩)]
  split <;> split <;> omega

/-! ## The plan -/

/-- The targets that `run_coordinator` takes from the membership are distinct. -/
theorem targets_distinct (meId : String) (m : Cluster.Membership) :
    ((targets meId m.membersAll).map (·.nodeId)).Nodup := by
  rw [targets, List.map_cons, List.map_map, List.nodup_cons]
  constructor
  · intro hmem
    obtain ⟨n, hn, hid⟩ := List.mem_map.mp hmem
    have hne := (of_decide_eq_true (List.mem_filter.mp hn).2).2
    exact hne hid
  · apply List.Nodup.sublist _ (Table.values_nodup m.members)
    exact List.Sublist.map (fun n : Cluster.NodeInfo => n.id) List.filter_sublist

variable {meTransportUrl : String} {ts : List Target} {chunks : List ChunkSpec}

theorem plan_ids : (plan meTransportUrl ts chunks).map (·.nodeId) = ts.map (·.nodeId) := by
  rw [plan, List.map_zipWith]
  apply List.ext_getElem
  · simp [buckets_length]
  · intro i h1 h2
    simp

theorem plan_chunks :
    (plan meTransportUrl ts chunks).map (·.chunks) = buckets ts.length chunks := by
  rw [plan, List.map_zipWith]
  apply List.ext_getElem
  · simp [buckets_length]
  · intro i h1 h2
    simp

/-- All the plan's chunks together are the chunks. -/
theorem plan_perm (hne : ts ≠ []) :
    ((plan meTransportUrl ts chunks).flatMap (·.chunks)).Perm chunks := by
  rw [List.flatMap_def, plan_chunks]
  exact buckets_perm (List.length_pos_iff.mpr hne) chunks

/-- With distinct ids the others are everybody but the receiver. -/
theorem perm_cons_others {p : List BroadcastSource} (hids : (p.map (·.nodeId)).Nodup)
    {own : BroadcastSource} (hown : own ∈ p) : p.Perm (own :: others p own.nodeId) := by
  induction p with
  | nil => cases hown
  | cons s p ih =>
      rw [List.map_cons, List.nodup_cons] at hids
      rcases List.mem_cons.mp hown with rfl | hmem
      · have hall : others (own :: p) own.nodeId = p := by
          rw [others, List.filter_cons_of_neg (by simp), List.filter_eq_self]
          intro t ht
          simp only [ne_eq, decide_eq_true_eq]
          intro heq
          exact hids.1 (List.mem_map.mpr ⟨t, ht, heq⟩)
        rw [hall]
      · have hne : s.nodeId ≠ own.nodeId := by
          intro heq
          exact hids.1 (List.mem_map.mpr ⟨own, hmem, heq.symm⟩)
        rw [others, List.filter_cons_of_pos (by simpa using hne)]
        exact ((ih hids.2 hmem).cons s).trans (List.Perm.swap own s _)

theorem assigned_eq_length (sources : List BroadcastSource) :
    assigned sources = (sources.flatMap (·.chunks)).length := by
  rw [assigned, List.length_flatMap]

/-- What a receiver is asked for: everything but its own bucket, as much of it
as is reported, and nothing from itself. -/
structure AskedForRest (chunks : List ChunkSpec) (own : BroadcastSource) (reported : Nat)
    (pulls : List (String × ChunkSpec)) : Prop where
  exact : (↑(pulls.map Prod.snd) : Multiset ChunkSpec) = ↑chunks - ↑own.chunks
  counted : pulls.length = reported
  foreign : ∀ pull ∈ pulls, pull.1 ≠ own.nodeId

/-- The pulls are those of the other sources, in any order. -/
theorem AskedForRest.of_others {p : List BroadcastSource} (hids : (p.map (·.nodeId)).Nodup)
    (hchunks : (p.flatMap (·.chunks)).Perm chunks) {own : BroadcastSource} (hown : own ∈ p)
    {pulls : List (String × ChunkSpec)}
    (hpulls : (pulls.map Prod.snd).Perm ((others p own.nodeId).flatMap (·.chunks)))
    (hforeign : ∀ pull ∈ pulls, pull.1 ≠ own.nodeId) :
    AskedForRest chunks own (assigned (others p own.nodeId)) pulls where
  exact := by
    have hall := ((perm_cons_others hids hown).flatMap_right (·.chunks)).symm.trans hchunks
    rw [List.flatMap_cons] at hall
    have hsum : (↑chunks : Multiset ChunkSpec) = ↑(pulls.map Prod.snd) + ↑own.chunks := by
      rw [Multiset.coe_add, Multiset.coe_eq_coe]
      exact (hall.symm.trans (hpulls.symm.append_left _)).trans List.perm_append_comm
    rw [hsum, Multiset.add_sub_cancel_right]
  counted := by
    rw [assigned_eq_length, ← hpulls.length_eq, List.length_map]
  foreign := hforeign

/-! ## The broadcast -/

section RoundRobin

variable (base64Decode : String → Option Bytes)

/-- The pulls of a source one after the other. -/
def pullsOf (s : BroadcastSource) : List Pull := s.chunks.map (pullOf base64Decode s)

theorem nextPulls_perm (sources : List BroadcastSource) :
    (sources.flatMap (pullsOf base64Decode)).Perm (nextPulls base64Decode sources ++
      (sources.map fun s => { s with chunks := s.chunks.tail }).flatMap
        (pullsOf base64Decode)) := by
  induction sources with
  | nil => simp [nextPulls]
  | cons s sources ih =>
      have hhead : pullsOf base64Decode s =
          (s.chunks.head?.map (pullOf base64Decode s)).toList ++
            pullsOf base64Decode { s with chunks := s.chunks.tail } := by
        cases hs : s.chunks with
        | nil => simp [pullsOf, hs]
        | cons c cs =>
            simp only [pullsOf, hs, List.map_cons, List.head?_cons, Option.map_some,
              Option.toList_some, List.tail_cons, List.singleton_append]
            rfl
      have hnext : nextPulls base64Decode (s :: sources) =
          (s.chunks.head?.map (pullOf base64Decode s)).toList ++
            nextPulls base64Decode sources := by
        rw [nextPulls, List.filterMap_cons]
        cases s.chunks.head? with
        | none => rfl
        | some c => rfl
      rw [hnext, List.flatMap_cons, hhead, List.map_cons, List.flatMap_cons, List.append_assoc,
        List.append_assoc]
      apply List.Perm.append_left
      refine (ih.append_left _).trans ?_
      rw [← List.append_assoc, ← List.append_assoc]
      exact List.perm_append_comm.append_right _

theorem nextPulls_nil {sources : List BroadcastSource}
    (h : nextPulls base64Decode sources = []) : sources.flatMap (pullsOf base64Decode) = [] := by
  rw [List.flatMap_eq_nil_iff]
  intro s hs
  have hnone := List.filterMap_eq_nil_iff.mp h s hs
  rw [Option.map_eq_none_iff, List.head?_eq_none_iff] at hnone
  simp [pullsOf, hnone]

/-- The scheduling loop starts each pull once. -/
theorem roundRobin_perm {fuel : Nat} {sources : List BroadcastSource}
    (hfuel : ∀ s ∈ sources, s.chunks.length ≤ fuel) :
    (roundRobin base64Decode (fuel + 1) sources).Perm
      (sources.flatMap (pullsOf base64Decode)) := by
  induction fuel generalizing sources with
  | zero =>
      have hnil : nextPulls base64Decode sources = [] := by
        apply List.filterMap_eq_nil_iff.mpr
        intro s hs
        rw [List.eq_nil_of_length_eq_zero (Nat.le_zero.mp (hfuel s hs))]
        rfl
      rw [roundRobin, hnil, nextPulls_nil base64Decode hnil]
  | succ fuel ih =>
      rw [roundRobin]
      split
      · rename_i hnil
        rw [nextPulls_nil base64Decode hnil]
      · refine (List.Perm.append_left _ (ih ?_)).trans (nextPulls_perm base64Decode sources).symm
        intro s' hs'
        obtain ⟨s, hs, rfl⟩ := List.mem_map.mp hs'
        have hlen := hfuel s hs
        simp only [List.length_tail]
        omega

theorem broadcastPulls_perm (req : BroadcastShardRequest) :
    (broadcastPulls base64Decode req).Perm
      (req.sources.flatMap (pullsOf base64Decode)) := by
  apply roundRobin_perm
  intro s hs
  rw [assigned_eq_length]
  exact (List.sublist_flatten_of_mem (List.mem_map_of_mem hs)).length_le

theorem broadcast_asks_for_rest (hne : ts ≠ []) (hids : (ts.map (·.nodeId)).Nodup)
    {mount : String} {own : BroadcastSource} (hown : own ∈ plan meTransportUrl ts chunks)
    {d : Dispatch BroadcastShardRequest}
    (hd : d ∈ broadcastPhase mount (plan meTransportUrl ts chunks))
    (hid : d.receiverId = own.nodeId) :
    AskedForRest chunks own d.assigned
      ((broadcastPulls base64Decode d.body).map fun p => (p.peerId, p.chunk)) := by
  obtain ⟨receiver, -, rfl⟩ := List.mem_map.mp hd
  change receiver.nodeId = own.nodeId at hid
  dsimp only
  rw [hid]
  apply AskedForRest.of_others (plan_ids ▸ hids) (plan_perm hne) hown
  · rw [List.map_map]
    refine ((broadcastPulls_perm base64Decode _).map _).trans ?_
    rw [List.map_flatMap]
    apply List.Perm.of_eq
    apply List.flatMap_congr
    intro s _
    simp [pullsOf, pullOf, Function.comp_def]
  · intro pull hpull
    obtain ⟨p, hp, rfl⟩ := List.mem_map.mp hpull
    have hmem := (broadcastPulls_perm base64Decode _).mem_iff.mp hp
    obtain ⟨s, hs, hps⟩ := List.mem_flatMap.mp hmem
    obtain ⟨c, -, rfl⟩ := List.mem_map.mp hps
    exact of_decide_eq_true (List.mem_filter.mp hs).2

end RoundRobin

/-! ## The ring -/

theorem sourceRank_val {world : Nat} {k : Nat} (hk : 1 ≤ k) (hkw : k < world)
    (recv : Fin world) :
    (sourceRank k recv).val = if k ≤ recv then recv - k else recv + world - k := by
  have hlt := recv.isLt
  simp only [sourceRank]
  split
  · have hmod : recv.val + world - k = (recv - k) + world := by omega
    rw [hmod, Nat.add_mod_right, Nat.mod_eq_of_lt (by omega)]
  · rw [Nat.mod_eq_of_lt (by omega)]

theorem sourceRank_ne {world : Nat} {k : Nat} (hk : 1 ≤ k) (hkw : k < world)
    (recv : Fin world) : sourceRank k recv ≠ recv := by
  intro heq
  have hval := congrArg Fin.val heq
  rw [sourceRank_val hk hkw] at hval
  split at hval <;> omega

/-- The steps go through all the other ranks. -/
theorem sourceRank_perm {world : Nat} (recv : Fin world) :
    ((List.range' 1 (world - 1)).map fun k => sourceRank k recv).Perm
      ((List.finRange world).filter (· ≠ recv)) := by
  have hlt := recv.isLt
  apply (List.perm_ext_iff_of_nodup ?_ ((List.nodup_finRange world).filter _)).mpr
  · intro s
    simp only [List.mem_map, List.mem_range'_1, List.mem_filter, List.mem_finRange, true_and,
      ne_eq, decide_eq_true_eq]
    constructor
    · rintro ⟨k, ⟨hk, hkw⟩, rfl⟩
      exact sourceRank_ne hk (by omega) recv
    · intro hne
      have hval : s.val ≠ recv.val := fun h => hne (Fin.ext h)
      have hs := s.isLt
      by_cases hle : s.val < recv.val
      · refine ⟨recv - s, by omega, Fin.ext ?_⟩
        rw [sourceRank_val (by omega) (by omega), if_pos (by omega)]
        omega
      · refine ⟨recv + world - s, by omega, Fin.ext ?_⟩
        rw [sourceRank_val (by omega) (by omega), if_neg (by omega)]
        omega
  · apply List.Nodup.map_on _ List.nodup_range'
    intro k hk k' hk' heq
    rw [List.mem_range'_1] at hk hk'
    have hval := congrArg Fin.val heq
    rw [sourceRank_val (by omega) (by omega), sourceRank_val (by omega) (by omega)] at hval
    split at hval <;> split at hval <;> omega

theorem ringPhase_eq (mount : String) (p : List BroadcastSource) :
    ringPhase mount p =
      (List.range' 1 ((sortedPlan p).length - 1)).map (ringStep mount (sortedPlan p)) := by
  simp only [ringPhase]
  split
  · rename_i hsmall
    rw [Nat.sub_eq_zero_of_le (Nat.le_of_lt_succ hsmall)]
    rfl
  · rfl

theorem sortedPlan_perm (p : List BroadcastSource) : (sortedPlan p).Perm p :=
  List.perm_insertionSort _ p

theorem filter_finRange_eq {n : Nat} (r : Fin n) : (List.finRange n).filter (· = r) = [r] := by
  rw [List.filter_eq, List.count_eq_one_of_mem (List.nodup_finRange n) (List.mem_finRange r)]
  rfl

/-- The requests of the ring phase to one node. -/
def ringAsked (mount : String) (p : List BroadcastSource) (id : String) :
    List (Dispatch RingStepRequest) :=
  (ringPhase mount p).flatten.filter fun d => d.receiverId = id

theorem id_eq_iff {sorted : List BroadcastSource} (hids : (sorted.map (·.nodeId)).Nodup)
    (r j : Fin sorted.length) : (sorted.get j).nodeId = (sorted.get r).nodeId ↔ j = r := by
  constructor
  · intro heq
    have hget := List.inj_on_of_nodup_map hids (List.get_mem sorted j) (List.get_mem sorted r) heq
    exact (hids.of_map).get_inj_iff.mp hget
  · rintro rfl
    rfl

def ringDispatch (mount : String) (sorted : List BroadcastSource) (r : Fin sorted.length)
    (k : Nat) : Dispatch RingStepRequest :=
  ⟨(sorted.get r).nodeId, assigned (others sorted (sorted.get r).nodeId),
    ringBody mount sorted k r⟩

/-- A node gets one request in each step. -/
theorem ringStep_filter {mount : String} {sorted : List BroadcastSource}
    (hids : (sorted.map (·.nodeId)).Nodup) (r : Fin sorted.length) (k : Nat) :
    ((ringStep mount sorted k).filter fun d => d.receiverId = (sorted.get r).nodeId) =
      [ringDispatch mount sorted r k] := by
  rw [ringStep, List.ofFn_eq_map, List.filter_map]
  have hpred : ((List.finRange sorted.length).filter
      ((fun d : Dispatch RingStepRequest => decide (d.receiverId = (sorted.get r).nodeId)) ∘
        fun recv => ringDispatch mount sorted recv k)) = [r] := by
    rw [← filter_finRange_eq r]
    apply List.filter_congr
    intro j _
    simp only [Function.comp_apply, ringDispatch, id_eq_iff hids r j]
  exact congrArg (List.map _) hpred

theorem ringAsked_eq {mount : String} {p : List BroadcastSource}
    (hids : ((sortedPlan p).map (·.nodeId)).Nodup) (r : Fin (sortedPlan p).length) :
    ringAsked mount p ((sortedPlan p).get r).nodeId =
      (List.range' 1 ((sortedPlan p).length - 1)).map
        (ringDispatch mount (sortedPlan p) r) := by
  rw [ringAsked, ringPhase_eq, List.filter_flatten, List.map_map, ← List.flatMap_def,
    List.map_eq_flatMap]
  apply List.flatMap_congr
  intro k _
  exact ringStep_filter hids r k

theorem others_eq_map {sorted : List BroadcastSource} (hids : (sorted.map (·.nodeId)).Nodup)
    (r : Fin sorted.length) :
    others sorted (sorted.get r).nodeId =
      ((List.finRange sorted.length).filter (· ≠ r)).map sorted.get := by
  calc others sorted (sorted.get r).nodeId
      = ((List.finRange sorted.length).map sorted.get).filter
          fun s => s.nodeId ≠ (sorted.get r).nodeId := by rw [List.map_get_finRange, others]
    _ = ((List.finRange sorted.length).filter (· ≠ r)).map sorted.get := by
        rw [List.filter_map]
        congr 1
        apply List.filter_congr
        intro j _
        simp only [Function.comp_apply, ne_eq, id_eq_iff hids r j]

/-- What the ring asks of a node in all steps together. -/
def ringPulls (mount : String) (p : List BroadcastSource) (id : String) :
    List (String × ChunkSpec) :=
  (ringAsked mount p id).flatMap fun d => d.body.chunks.map fun c => (d.body.prevNodeId, c)

theorem ringPulls_chunks {mount : String} {p : List BroadcastSource}
    (hids : ((sortedPlan p).map (·.nodeId)).Nodup) (r : Fin (sortedPlan p).length) :
    ((ringPulls mount p ((sortedPlan p).get r).nodeId).map Prod.snd).Perm
      ((others (sortedPlan p) ((sortedPlan p).get r).nodeId).flatMap (·.chunks)) := by
  rw [others_eq_map hids, List.flatMap_map]
  refine .trans (.of_eq ?_) ((sourceRank_perm r).flatMap_right _)
  rw [ringPulls, ringAsked_eq hids, List.map_flatMap, List.flatMap_map, List.flatMap_map]
  apply List.flatMap_congr
  intro k _
  simp [ringDispatch, ringBody, Function.comp_def]

theorem ring_asks_for_rest (hne : ts ≠ []) (hids : (ts.map (·.nodeId)).Nodup) (mount : String)
    {own : BroadcastSource} (hown : own ∈ plan meTransportUrl ts chunks) :
    let p := plan meTransportUrl ts chunks
    AskedForRest chunks own (assigned (others (sortedPlan p) own.nodeId))
      (ringPulls mount p own.nodeId) ∧
    ∀ d ∈ ringAsked mount p own.nodeId,
      d.assigned = assigned (others (sortedPlan p) own.nodeId) ∧
      d.body.sourceNodeId ≠ own.nodeId ∧ d.body.prevNodeId ≠ own.nodeId := by
  intro p
  have hsorted := sortedPlan_perm p
  have hids' : ((sortedPlan p).map (·.nodeId)).Nodup :=
    (hsorted.map _).nodup_iff.mpr (plan_ids ▸ hids)
  have hown' : own ∈ sortedPlan p := hsorted.mem_iff.mpr hown
  obtain ⟨r, rfl⟩ := List.mem_iff_get.mp hown'
  have hasked : ∀ d ∈ ringAsked mount p ((sortedPlan p).get r).nodeId,
      d.assigned = assigned (others (sortedPlan p) ((sortedPlan p).get r).nodeId) ∧
      d.body.sourceNodeId ≠ ((sortedPlan p).get r).nodeId ∧
      d.body.prevNodeId ≠ ((sortedPlan p).get r).nodeId := by
    intro d hd
    rw [ringAsked_eq hids'] at hd
    obtain ⟨k, hk, rfl⟩ := List.mem_map.mp hd
    rw [List.mem_range'_1] at hk
    have hkw : k < (sortedPlan p).length := by omega
    refine ⟨rfl, ?_, ?_⟩
    · intro heq
      exact sourceRank_ne hk.1 hkw r ((id_eq_iff hids' r _).mp heq)
    · intro heq
      have hprev : prevRank r = r := (id_eq_iff hids' r _).mp heq
      exact sourceRank_ne le_rfl (by omega) r hprev
  refine ⟨.of_others hids' ((hsorted.flatMap_right _).trans (plan_perm hne)) hown'
    (ringPulls_chunks hids' r) ?_, hasked⟩
  intro pull hpull
  obtain ⟨d, hd, hc⟩ := List.mem_flatMap.mp hpull
  obtain ⟨c, -, rfl⟩ := List.mem_map.mp hc
  exact (hasked d hd).2.2

/-- The buckets partition the chunks evenly; the broadcast and the ring ask
every node once for each chunk that is not its own. -/
theorem plan_covers_chunks (base64Decode : String → Option Bytes) (meTransportUrl : String)
    (ts : List Target) (hne : ts ≠ []) (hids : (ts.map (·.nodeId)).Nodup)
    (chunks : List ChunkSpec) (mount : String) :
    let p := plan meTransportUrl ts chunks
    ((∀ j < ts.length, (buckets ts.length chunks)[j]? =
        some ((chunks.zipIdx.filter fun ci => ci.2 % ts.length = j).map Prod.fst)) ∧
      (buckets ts.length chunks).flatten.Perm chunks ∧
      ∀ b ∈ buckets ts.length chunks, ∀ b' ∈ buckets ts.length chunks,
        b.length ≤ b'.length + 1) ∧
    (p.map (·.nodeId) = ts.map (·.nodeId) ∧ p.map (·.chunks) = buckets ts.length chunks) ∧
    ((broadcastPhase mount p).map (·.receiverId) = p.map (·.nodeId) ∧
      ∀ own ∈ p, ∀ d ∈ broadcastPhase mount p, d.receiverId = own.nodeId →
        AskedForRest chunks own d.assigned
          ((broadcastPulls base64Decode d.body).map fun pull => (pull.peerId, pull.chunk))) ∧
    ∀ own ∈ p,
      AskedForRest chunks own (assigned (others (sortedPlan p) own.nodeId))
        (ringPulls mount p own.nodeId) ∧
      ∀ d ∈ ringAsked mount p own.nodeId,
        d.assigned = assigned (others (sortedPlan p) own.nodeId) ∧
        d.body.sourceNodeId ≠ own.nodeId ∧ d.body.prevNodeId ≠ own.nodeId := by
  intro p
  have hpos : 0 < ts.length := List.length_pos_iff.mpr hne
  refine ⟨⟨?_, buckets_perm hpos chunks, ?_⟩, ⟨plan_ids, plan_chunks⟩, ⟨?_, ?_⟩, ?_⟩
  · intro j hj
    exact buckets_get? hj chunks
  · intro b hb b' hb'
    exact buckets_even hpos chunks hb hb'
  · rw [broadcastPhase, List.map_map]
    rfl
  · intro own hown d hd hid
    exact broadcast_asks_for_rest base64Decode hne hids hown hd hid
  · intro own hown
    exact ring_asks_for_rest hne hids mount hown

/-- The node "a" knows of one other. -/
def twoMembers : Cluster.Membership :=
  (Cluster.Membership.new ⟨⟨"a", "http://a:1", none⟩, "", "h", 0, .alive, 1, 0⟩
    ⟨0, 0, 0, 0⟩).merge 0 [⟨⟨"b", "http://b:1", none⟩, "", "h", 0, .alive, 1, 0⟩]

def twoTargets : List Target := targets "a" twoMembers.membersAll

/-- Five chunks for two nodes: the second is asked for the three of the first. -/
theorem plan_covers_chunks_of_two :
    ∃ own ∈ plan "http://a:1" twoTargets (blobChunks 4 "m.bin" 18),
      own.nodeId = "b" ∧ own.chunks.length = 2 ∧
      ∃ d ∈ broadcastPhase "models" (plan "http://a:1" twoTargets (blobChunks 4 "m.bin" 18)),
        d.assigned = 3 ∧ AskedForRest (blobChunks 4 "m.bin" 18) own 3
          ((broadcastPulls (fun _ => none) d.body).map fun pull => (pull.peerId, pull.chunk)) := by
  obtain ⟨-, -, ⟨-, hbroadcast⟩, -⟩ := plan_covers_chunks (fun _ => none) "http://a:1" twoTargets
    (by decide) (targets_distinct "a" twoMembers) (blobChunks 4 "m.bin" 18) "models"
  let own : BroadcastSource :=
    ⟨"b", "http://b:1", none, [⟨"m.bin", 4, 4⟩, ⟨"m.bin", 12, 4⟩]⟩
  let other : BroadcastSource :=
    ⟨"a", "http://a:1", none, [⟨"m.bin", 0, 4⟩, ⟨"m.bin", 8, 4⟩, ⟨"m.bin", 16, 2⟩]⟩
  have hown : own ∈ plan "http://a:1" twoTargets (blobChunks 4 "m.bin" 18) := by decide
  have hd : (⟨"b", 3, ⟨"models", [other]⟩⟩ : Dispatch BroadcastShardRequest) ∈
      broadcastPhase "models" (plan "http://a:1" twoTargets (blobChunks 4 "m.bin" 18)) := by
    decide
  exact ⟨own, hown, rfl, rfl, _, hd, rfl, hbroadcast own hown _ hd rfl⟩

end BlobCache.Hydrate
