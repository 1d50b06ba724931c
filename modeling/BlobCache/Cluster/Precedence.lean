import Mathlib.Data.Prod.Lex
import BlobCache.Data.Best
import BlobCache.Cluster.Membership

/-!
What merging gossip does to the record of one id. Between records of one
incarnation the more recently seen one wins and only then the more severe state,
so a merge keeps the record of the highest precedence, and the order, the
batches and the repetitions of gossip do not matter. A record about the node
itself is never stored: the node answers it with its own incarnation.
-/

namespace BlobCache.Cluster

/-- The triple that decides between two records of one id, compared from the
left. -/
def precedence (n : NodeInfo) : Nat ×ₗ Nat ×ₗ Nat :=
  toLex (n.incarnation, toLex (n.lastSeenUnix, n.state.rank))

/-- A peer's record as it starts. -/
def samplePeer (id hash : String) : NodeInfo :=
  ⟨⟨id, "", none⟩, "", hash, 0, .alive, 1, 0⟩

namespace Membership

theorem shouldUpdate_iff (existing n : NodeInfo) :
    shouldUpdate existing n = true ↔ precedence existing < precedence n := by
  simp only [shouldUpdate, precedence, Prod.Lex.toLex_lt_toLex, Bool.or_eq_true,
    Bool.and_eq_true, decide_eq_true_eq, gt_iff_lt]
  constructor
  · rintro ((h | ⟨h, hs⟩) | ⟨⟨h, hs⟩, hr⟩)
    · exact .inl h
    · exact .inr ⟨h.symm, .inl hs⟩
    · exact .inr ⟨h.symm, .inr ⟨hs.symm, hr⟩⟩
  · rintro (h | ⟨h, hs | ⟨hs, hr⟩⟩)
    · exact .inl (.inl h)
    · exact .inl (.inr ⟨h.symm, hs⟩)
    · exact .inr ⟨⟨h.symm, hs.symm⟩, hr⟩

/-- The records that a merge considers for an id other than the node's own. -/
def considers (m : Membership) (id : String) (n : NodeInfo) : Bool :=
  n.id = id ∧ n.clusterHash = m.meTemplate.clusterHash

@[simp] theorem mergeOne_meTemplate (now : Nat) (acc : Membership × List NodeInfo) (n : NodeInfo) :
    (mergeOne now acc n).1.meTemplate = acc.1.meTemplate := by
  obtain ⟨m, updates⟩ := acc
  simp only [mergeOne]
  split
  · rfl
  · split
    · rfl
    · split
      · split <;> rfl
      · rfl

theorem mergeOne_get? (now : Nat) (acc : Membership × List NodeInfo) (n : NodeInfo) {id : String}
    (hid : id ≠ acc.1.meId) :
    (mergeOne now acc n).1.members.get? id =
      if acc.1.considers id n then
        some ((acc.1.members.get? id).elim n fun e => better precedence e n)
      else acc.1.members.get? id := by
  obtain ⟨m, updates⟩ := acc
  simp only [considers, decide_eq_true_eq]
  by_cases hme : n.id = m.meId
  · -- The own entry is rewritten, which is under another id.
    have hne : n.id ≠ id := fun h => hid (h.symm.trans hme)
    rw [if_neg (fun h => hne h.1)]
    simp only [mergeOne, if_pos hme, refute, Table.get?_insert]
    exact if_neg hid
  by_cases hhash : n.clusterHash = m.meTemplate.clusterHash
  · by_cases hn : n.id = id
    · subst hn
      rw [if_pos ⟨rfl, hhash⟩]
      cases hget : m.members.get? n.id with
      | none =>
          simp only [mergeOne, if_neg hme, hhash, ne_eq, not_true_eq_false, if_false, hget]
          simp [Table.get?_insert]
      | some existing =>
          simp only [mergeOne, if_neg hme, hhash, ne_eq, not_true_eq_false, if_false, hget]
          simp only [shouldUpdate_iff, better, Option.elim]
          split
          · simp [Table.get?_insert]
          · exact hget
    · rw [if_neg (fun h => hn h.1)]
      have hother : (m.members.insert n).get? id = m.members.get? id := by
        rw [Table.get?_insert, if_neg (fun h => hn h.symm)]
      simp only [mergeOne, if_neg hme, hhash, ne_eq, not_true_eq_false, if_false]
      split
      · split
        · exact hother
        · rfl
      · exact hother
  · rw [if_neg (fun h => hhash h.2)]
    simp only [mergeOne, if_neg hme, ne_eq, hhash, not_false_eq_true, if_true]

theorem foldl_mergeOne_meTemplate (now : Nat) (l : List NodeInfo)
    (acc : Membership × List NodeInfo) :
    (l.foldl (mergeOne now) acc).1.meTemplate = acc.1.meTemplate := by
  induction l generalizing acc with
  | nil => rfl
  | cons n l ih => rw [List.foldl_cons, ih, mergeOne_meTemplate]

@[simp] theorem merge_meTemplate (m : Membership) (now : Nat) (l : List NodeInfo) :
    (m.merge now l).meTemplate = m.meTemplate :=
  foldl_mergeOne_meTemplate now l (m, [])

@[simp] theorem merge_meId (m : Membership) (now : Nat) (l : List NodeInfo) :
    (m.merge now l).meId = m.meId := by
  unfold meId
  rw [merge_meTemplate]

/-- A merge keeps the best of the record it had and the records it considers. -/
theorem merge_get? (m : Membership) (now : Nat) (l : List NodeInfo) {id : String}
    (hid : id ≠ m.meId) :
    (m.merge now l).members.get? id =
      best? precedence (m.members.get? id) (l.filter (m.considers id)) := by
  suffices h : ∀ acc : Membership × List NodeInfo, acc.1.meTemplate = m.meTemplate →
      (l.foldl (mergeOne now) acc).1.members.get? id =
        best? precedence (acc.1.members.get? id) (l.filter (m.considers id)) from
    h (m, []) rfl
  intro acc hacc
  induction l generalizing acc with
  | nil => rfl
  | cons n l ih =>
      have hmeId : acc.1.meId = m.meId := congrArg (·.id) hacc
      have hcons : acc.1.considers id n = m.considers id n := by
        unfold considers
        rw [hacc]
      rw [List.foldl_cons, ih _ ((mergeOne_meTemplate now acc n).trans hacc),
        mergeOne_get? now acc n (hmeId ▸ hid), hcons, List.filter_cons]
      split <;> rfl

/-- The own entry that a merge writes. -/
def ownEntry (m : Membership) (now inc : Nat) : NodeInfo :=
  { m.meTemplate with incarnation := inc, lastSeenUnix := now, state := .alive }

theorem mergeOne_get?_me (now : Nat) (acc : Membership × List NodeInfo) (n : NodeInfo) :
    (mergeOne now acc n).1.members.get? acc.1.meId = acc.1.members.get? acc.1.meId ∨
      ∃ inc, (mergeOne now acc n).1.members.get? acc.1.meId = some (acc.1.ownEntry now inc) := by
  obtain ⟨m, updates⟩ := acc
  simp only [mergeOne]
  split
  · exact .inr ⟨_, (Table.get?_insert _ _ _).trans (if_pos rfl)⟩
  · rename_i hme
    have hother : (m.members.insert n).get? m.meId = m.members.get? m.meId := by
      rw [Table.get?_insert, if_neg (fun h => hme h.symm)]
    left
    split
    · rfl
    · split
      · split
        · exact hother
        · rfl
      · exact hother

/-- A merge leaves the own entry or writes it again from the template. -/
theorem merge_get?_me (m : Membership) (now : Nat) (l : List NodeInfo) :
    (m.merge now l).members.get? m.meId = m.members.get? m.meId ∨
      ∃ inc, (m.merge now l).members.get? m.meId = some (m.ownEntry now inc) := by
  suffices h : ∀ acc : Membership × List NodeInfo, acc.1.meTemplate = m.meTemplate →
      (l.foldl (mergeOne now) acc).1.members.get? m.meId = acc.1.members.get? m.meId ∨
        ∃ inc, (l.foldl (mergeOne now) acc).1.members.get? m.meId = some (m.ownEntry now inc) from
    h (m, []) rfl
  intro acc hacc
  induction l generalizing acc with
  | nil => exact .inl rfl
  | cons n l ih =>
      have hmeId : acc.1.meId = m.meId := congrArg (·.id) hacc
      have hown : ∀ inc, acc.1.ownEntry now inc = m.ownEntry now inc := by
        intro inc
        unfold ownEntry
        rw [hacc]
      have hone := mergeOne_get?_me now acc n
      rw [hmeId] at hone
      rcases ih _ ((mergeOne_meTemplate now acc n).trans hacc) with hsame | hrest
      · rw [List.foldl_cons, hsame]
        rcases hone with hkept | ⟨inc, hinc⟩
        · exact .inl hkept
        · exact .inr ⟨inc, hinc.trans (congrArg some (hown inc))⟩
      · exact .inr hrest

/-- A record after a merge was there before, came with the batch, or is the own
entry. -/
theorem merge_record {m : Membership} {now : Nat} {l : List NodeInfo} {id : String}
    {r : NodeInfo} (h : (m.merge now l).members.get? id = some r) :
    m.members.get? id = some r ∨
      (id ≠ m.meId ∧ r ∈ l ∧ r.clusterHash = m.meTemplate.clusterHash) ∨
        id = m.meId ∧ ∃ inc, r = m.ownEntry now inc := by
  by_cases hid : id = m.meId
  · subst hid
    rcases merge_get?_me m now l with hkept | ⟨inc, hinc⟩
    · exact .inl (hkept ▸ h)
    · exact .inr (.inr ⟨rfl, inc, Option.some.inj (h.symm.trans hinc)⟩)
  · rw [merge_get? m now l hid] at h
    rcases best?_mem precedence h with hkept | hmem
    · exact .inl hkept
    · obtain ⟨hmem, hconsider⟩ := List.mem_filter.mp hmem
      simp only [considers, decide_eq_true_eq] at hconsider
      exact .inr (.inl ⟨hid, hmem, hconsider.2⟩)

/-- Merges one after the other, each at its own second. -/
def mergeAll (m : Membership) (batches : List (Nat × List NodeInfo)) : Membership :=
  batches.foldl (fun m b => m.merge b.1 b.2) m

theorem mergeAll_get? (m : Membership) (batches : List (Nat × List NodeInfo)) {id : String}
    (hid : id ≠ m.meId) :
    (m.mergeAll batches).members.get? id =
      best? precedence (m.members.get? id)
        ((batches.flatMap (·.2)).filter (m.considers id)) := by
  induction batches generalizing m with
  | nil => rfl
  | cons b batches ih =>
      have hcons : (m.merge b.1 b.2).considers id = m.considers id := by
        funext n
        simp [considers]
      change ((m.merge b.1 b.2).mergeAll batches).members.get? id = _
      rw [ih _ (by simpa using hid), merge_get? m b.1 b.2 hid, hcons, List.flatMap_cons,
        List.filter_append]
      simp only [best?, List.foldl_append]

/-- What a node knows of an id: the record it started with and the records of
its own cluster that it received. -/
def known (m : Membership) (batches : List (Nat × List NodeInfo)) (id : String) : List NodeInfo :=
  (m.members.get? id).toList ++ (batches.flatMap (·.2)).filter (m.considers id)

/-- The triple that a node holds for an id. -/
def held (m : Membership) (id : String) : Option (Nat ×ₗ Nat ×ₗ Nat) :=
  (m.members.get? id).map precedence

theorem mergeAll_held (m : Membership) (batches : List (Nat × List NodeInfo)) {id : String}
    (hid : id ≠ m.meId) :
    (m.mergeAll batches).held id = ((m.known batches id).map precedence).max? := by
  unfold held
  rw [mergeAll_get? m batches hid, best?_rank]
  rfl

def sampleBatches : List (Nat × List NodeInfo) :=
  [(9, [{ samplePeer "b" "h" with lastSeenUnix := 5, state := .suspect },
      { samplePeer "b" "h" with lastSeenUnix := 7 }]),
    (9, [{ samplePeer "b" "h" with lastSeenUnix := 7, state := .dead }])]

/-- Gossip converges: whatever the batches, a node ends with the highest triple
it knows of an id. The batches, their order and repetitions do not matter, and
two nodes that know the same records hold the same triple. -/
theorem merge_converges (m : Membership) (batches : List (Nat × List NodeInfo)) (id : String)
    (hid : id ≠ m.meId) :
    (m.mergeAll batches).held id = ((m.known batches id).map precedence).max? ∧
      (∀ batches' : List (Nat × List NodeInfo),
        (∀ n, n ∈ batches'.flatMap (·.2) ↔ n ∈ batches.flatMap (·.2)) →
          (m.mergeAll batches').held id = (m.mergeAll batches).held id) ∧
      ∀ (m' : Membership) (batches' : List (Nat × List NodeInfo)), id ≠ m'.meId →
        (∀ n, n ∈ m'.known batches' id ↔ n ∈ m.known batches id) →
          (m'.mergeAll batches').held id = (m.mergeAll batches).held id := by
  have hagree : ∀ (m' : Membership) (batches' : List (Nat × List NodeInfo)), id ≠ m'.meId →
      (∀ n, n ∈ m'.known batches' id ↔ n ∈ m.known batches id) →
        (m'.mergeAll batches').held id = (m.mergeAll batches).held id := by
    intro m' batches' hid' hsame
    rw [mergeAll_held m' batches' hid', mergeAll_held m batches hid]
    apply max?_congr
    intro p
    simp only [List.mem_map, hsame]
  refine ⟨mergeAll_held m batches hid, ?_, hagree⟩
  intro batches' hsame
  apply hagree m batches' hid
  intro n
  simp only [known, List.mem_append, List.mem_filter, hsame]

theorem merge_converges_of_three :
    ((Membership.new (samplePeer "a" "h") ⟨0, 0, 0, 0⟩).mergeAll sampleBatches).held "b" =
      some (toLex (1, toLex (7, 2))) := by
  have hmax := (merge_converges (Membership.new (samplePeer "a" "h") ⟨0, 0, 0, 0⟩) sampleBatches
    "b" (by decide)).1
  rw [hmax]
  decide +kernel

/-! ### Records about the node itself -/

/-- A record about a node is outbid by the incarnation the node has. -/
def Outbid (n : NodeInfo) (inc : Nat) : Prop :=
  n.incarnation < inc ∨ n.incarnation = inc ∧ n.state = .alive

theorem Outbid.mono {n : NodeInfo} {inc inc' : Nat} (h : Outbid n inc) (hle : inc ≤ inc') :
    Outbid n inc' := by
  rcases h with hlt | ⟨heq, halive⟩
  · exact .inl (hlt.trans_le hle)
  · rcases hle.lt_or_eq with hlt | hinc
    · exact .inl (heq ▸ hlt)
    · exact .inr ⟨heq.trans hinc, halive⟩

/-- The incarnation after a record about this node, if there were no limit. -/
def bumped (inc : Nat) (n : NodeInfo) : Nat :=
  if n.incarnation > inc ∨ (n.incarnation = inc ∧ n.state ≠ .alive) then
    max n.incarnation inc + 1
  else inc

theorem le_bumped (inc : Nat) (n : NodeInfo) : inc ≤ bumped inc n := by
  unfold bumped
  split
  · omega
  · exact le_rfl

theorem outbid_bumped (inc : Nat) (n : NodeInfo) : Outbid n (bumped inc n) := by
  unfold bumped
  split
  · exact .inl (by omega)
  · rename_i hquiet
    rcases lt_trichotomy n.incarnation inc with hlt | heq | hgt
    · exact .inl hlt
    · exact .inr ⟨heq, by_contra fun hdown => hquiet (.inr ⟨heq, hdown⟩)⟩
    · exact absurd (.inl hgt) hquiet

theorem le_foldl_bumped (inc : Nat) (own : List NodeInfo) : inc ≤ own.foldl bumped inc := by
  induction own generalizing inc with
  | nil => exact le_rfl
  | cons n own ih => exact (le_bumped inc n).trans (ih _)

theorem outbid_foldl_bumped {own : List NodeInfo} {n : NodeInfo} (hn : n ∈ own) (inc : Nat) :
    Outbid n (own.foldl bumped inc) := by
  induction own generalizing inc with
  | nil => cases hn
  | cons a own ih =>
      rcases List.mem_cons.mp hn with rfl | hn
      · exact (outbid_bumped inc n).mono (le_foldl_bumped _ own)
      · exact ih hn _

/-- A record that is bumped bids at least as much as the node has, so that the sum does not
wrap for one below the limit. -/
theorem refutedIncarnation_of_lt (inc : Nat) {n : NodeInfo} (hn : n.incarnation < 2 ^ 64 - 1) :
    refutedIncarnation inc n = bumped inc n := by
  unfold refutedIncarnation bumped
  split
  · exact Nat.mod_eq_of_lt (by omega)
  · rfl

theorem mergeOne_meIncarnation (now : Nat) (acc : Membership × List NodeInfo) (n : NodeInfo) :
    (mergeOne now acc n).1.meIncarnation =
      if n.id = acc.1.meId then refutedIncarnation acc.1.meIncarnation n
      else acc.1.meIncarnation := by
  obtain ⟨m, updates⟩ := acc
  simp only [mergeOne]
  split
  · rfl
  · split
    · rfl
    · split
      · split <;> rfl
      · rfl

/-- The records of the batch that are about this node. -/
def own (m : Membership) (batch : List NodeInfo) : List NodeInfo :=
  batch.filter fun n => n.id = m.meId

/-- Records about other nodes play no part. -/
theorem merge_meIncarnation (m : Membership) (now : Nat) (batch : List NodeInfo) :
    (m.merge now batch).meIncarnation =
      (m.own batch).foldl refutedIncarnation m.meIncarnation := by
  induction batch using List.reverseRecOn with
  | nil => rfl
  | append_singleton batch n ih =>
      have hid : (m.merge now batch).meId = m.meId := by
        rw [meId, merge_meTemplate, meId]
      unfold merge mergeUpdates at ih hid ⊢
      rw [List.foldl_concat, mergeOne_meIncarnation, hid, ih, own, own, List.filter_append,
        List.filter_singleton, List.foldl_append]
      by_cases hown : n.id = m.meId
      · rw [decide_eq_true hown, cond_true, if_pos hown, List.foldl_cons, List.foldl_nil]
      · rw [decide_eq_false hown, cond_false, if_neg hown, List.foldl_nil]

/-- A node that heard what is said about it outbids it, and its next snapshot
wins at every other node of the cluster that holds one of those claims or an
earlier incarnation, at whatever times. -/
theorem refutation_wins (x : Membership) (now : Nat) (batch : List NodeInfo)
    (hinc : ∀ n ∈ batch, n.incarnation < 2 ^ 64 - 1) :
    (∀ n ∈ batch, n.id = x.meId → Outbid n (x.merge now batch).meIncarnation) ∧
      ∀ (y : Membership) (r : NodeInfo) (sentAt mergedAt : Nat), y.meId ≠ x.meId →
        y.meTemplate.clusterHash = x.meTemplate.clusterHash →
        y.members.get? x.meId = some r →
        (r ∈ batch ∧ r.state ≠ .alive) ∨ r.incarnation < (x.merge now batch).meIncarnation →
        ∃ r', (y.merge mergedAt [(x.merge now batch).meSnapshot sentAt]).members.get? x.meId =
            some r' ∧
          r'.state = .alive ∧ r'.incarnation = (x.merge now batch).meIncarnation := by
  have houtbid : ∀ n ∈ batch, n.id = x.meId → Outbid n (x.merge now batch).meIncarnation := by
    intro n hn hid
    have hsame : (x.own batch).foldl refutedIncarnation x.meIncarnation =
        (x.own batch).foldl bumped x.meIncarnation := by
      apply List.foldl_ext
      intro inc a ha
      exact refutedIncarnation_of_lt inc (hinc a (List.mem_filter.mp ha).1)
    rw [merge_meIncarnation, hsame]
    exact outbid_foldl_bumped (List.mem_filter.mpr ⟨hn, decide_eq_true hid⟩) _
  refine ⟨houtbid, ?_⟩
  intro y r sentAt mergedAt hne hhash hr hclaim
  refine ⟨(x.merge now batch).meSnapshot sentAt, ?_, rfl, rfl⟩
  have hlower : r.incarnation < (x.merge now batch).meIncarnation := by
    rcases hclaim with ⟨hmem, hdown⟩ | hlower
    · rcases houtbid r hmem (id_of_get? hr) with hlt | ⟨-, halive⟩
      · exact hlt
      · exact absurd halive hdown
    · exact hlower
  have hprec : precedence r < precedence ((x.merge now batch).meSnapshot sentAt) :=
    Prod.Lex.toLex_lt_toLex.mpr (.inl hlower)
  have hconsider : y.considers x.meId ((x.merge now batch).meSnapshot sentAt) = true := by
    simp [considers, meSnapshot, hhash, meId]
  rw [merge_get? y mergedAt _ hne.symm, hr, List.filter_singleton, hconsider]
  simp [best?, better, hprec]

def sampleClaim (hash : String) : NodeInfo :=
  { samplePeer "x" hash with state := .dead, lastSeenUnix := 50 }

/-- A node that takes `x` for dead. -/
def sampleAccuser (hash : String) : Membership :=
  (Membership.new (samplePeer "y" hash) ⟨0, 0, 0, 0⟩).merge 50 [sampleClaim hash]

/-- The record of `x` that a node of the cluster `hash` holds after `x` heard
that node's claim and answered it. -/
def answeredClaim (hash : String) : Option NodeInfo :=
  let x := (Membership.new (samplePeer "x" "h") ⟨0, 0, 0, 0⟩).merge 60 [sampleClaim hash]
  ((sampleAccuser hash).merge 10 [x.meSnapshot 9]).members.get? "x"

theorem refutation_wins_over_claim :
    ∃ r', answeredClaim "h" = some r' ∧ r'.state = .alive ∧ r'.incarnation = 2 := by
  have hwins := (refutation_wins (Membership.new (samplePeer "x" "h") ⟨0, 0, 0, 0⟩) 60
    [sampleClaim "h"] (by decide)).2 (sampleAccuser "h") (sampleClaim "h") 9 10 (by decide)
    (by decide) (by decide +kernel) (.inl ⟨List.mem_singleton_self _, by decide⟩)
  obtain ⟨r', hget, halive, hinc⟩ := hwins
  exact ⟨r', hget, halive, hinc.trans (by decide +kernel)⟩

/-- In another cluster the claim stands: the answer is dropped there. -/
theorem refutation_dropped_elsewhere :
    ∃ (x y : Membership) (batch : List NodeInfo) (r : NodeInfo),
      (∀ n ∈ batch, n.incarnation < 2 ^ 64 - 1) ∧ y.meId ≠ x.meId ∧
        y.members.get? x.meId = some r ∧ r ∈ batch ∧ r.state = .dead ∧
        (y.merge 10 [(x.merge 60 batch).meSnapshot 9]).members.get? x.meId = some r := by
  refine ⟨Membership.new (samplePeer "x" "h") ⟨0, 0, 0, 0⟩, sampleAccuser "other",
    [sampleClaim "other"], sampleClaim "other", ?_⟩
  decide +kernel

end Membership

end BlobCache.Cluster
