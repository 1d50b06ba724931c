import BlobCache.Cluster.Precedence

/-!
The deaths of peers. A death is a write of the table that takes the record of a peer from
another state to dead: a sweep does that when it has not heard of the peer for long, and a
merge when it takes over a record that says so. Which merges do is read off the batch and
the table before.
-/

namespace BlobCache.Cluster.Membership

/-- The peer, if the step between two tables is its death. -/
def deathOf (before after : Membership) (id : String) : List String :=
  match before.members.get? id, after.members.get? id with
  | some old, some new =>
      if id ≠ before.meId ∧ old.state ≠ .dead ∧ new.state = .dead then [id] else []
  | _, _ => []

/-- The deaths in a merge, one record after the other. -/
def mergeDeaths (now : Nat) : Membership → List NodeInfo → List String
  | _, [] => []
  | m, n :: incoming =>
      let m' := (mergeOne now (m, []) n).1
      deathOf m m' n.id ++ mergeDeaths now m' incoming

def sweepDeaths (m : Membership) (now : Nat) : List String :=
  m.membersAll.flatMap fun n => deathOf m (m.sweep now) n.id

/-- No dead record among these wins over one that is not dead: neither over the record in
the table nor over a better one that comes before it. -/
def Spares (m : Membership) (incoming : List NodeInfo) : Prop :=
  ∀ earlier n later, incoming = earlier ++ n :: later →
    n.id ≠ m.meId → n.clusterHash = m.meTemplate.clusterHash → n.state = .dead →
    ∀ r, best? precedence (m.members.get? n.id) (earlier.filter (m.considers n.id)) = some r →
      r.state ≠ .dead → shouldUpdate r n = false

theorem mem_deathOf {before after : Membership} {id id' : String} :
    id' ∈ deathOf before after id ↔ id' = id ∧ id ≠ before.meId ∧
      ∃ old new, before.members.get? id = some old ∧ after.members.get? id = some new ∧
        old.state ≠ .dead ∧ new.state = .dead := by
  unfold deathOf
  split
  · rename_i old new hold hnew
    split
    · rename_i hdeath
      obtain ⟨hid, halive, hdead⟩ := hdeath
      simp [hold, hnew, hid, halive, hdead]
    · rename_i hdeath
      simp only [List.not_mem_nil, false_iff]
      rintro ⟨-, hid, old', new', hold', hnew', halive, hdead⟩
      cases hold.symm.trans hold'
      cases hnew.symm.trans hnew'
      exact hdeath ⟨hid, halive, hdead⟩
  · rename_i hmissing
    simp only [List.not_mem_nil, false_iff]
    rintro ⟨-, -, old, new, hold, hnew, -⟩
    exact hmissing old new hold hnew

/-- A touched peer is alive. -/
theorem deathOf_touchPeer (m : Membership) (now : Nat) (id : String) :
    deathOf m (m.touchPeer now id) id = [] := by
  apply List.eq_nil_iff_forall_not_mem.mpr
  intro id' hmem
  obtain ⟨-, -, old, new, hold, hnew, -, hdead⟩ := mem_deathOf.mp hmem
  rw [touchPeer_get?, hold] at hnew
  cases hnew
  simp [touched, id_of_get? hold] at hdead

theorem mem_sweepDeaths {m : Membership} {now : Nat} {id : String} {old new : NodeInfo}
    (hid : id ≠ m.meId) (hold : m.members.get? id = some old) (halive : old.state ≠ .dead)
    (hnew : (m.sweep now).members.get? id = some new) (hdead : new.state = .dead) :
    id ∈ sweepDeaths m now := by
  have hkey := id_of_get? hold
  subst hkey
  apply List.mem_flatMap.mpr
  refine ⟨old, Table.mem_values_iff.mpr hold, ?_⟩
  exact mem_deathOf.mpr ⟨rfl, hid, old, new, hold, hnew, halive, hdead⟩

/-- A sweep calls the hook for the peers that die in it. -/
theorem newlyDead_of_sweepDeaths {m : Membership} {now : Nat} {id : String}
    (h : id ∈ sweepDeaths m now) : id ∈ m.newlyDead now := by
  obtain ⟨n, hn, hdeath⟩ := List.mem_flatMap.mp h
  obtain ⟨rfl, hid, old, new, hold, hnew, halive, hdead⟩ := mem_deathOf.mp hdeath
  cases (Table.mem_values_iff.mp hn).symm.trans hold
  rw [sweep_get?, hold] at hnew
  cases hnew
  have haged : agedState now n = .dead := by simpa [aged, hid] using hdead
  apply List.mem_map.mpr
  refine ⟨n, List.mem_filter.mpr ⟨hn, ?_⟩, rfl⟩
  have hchange : agedState now n ≠ n.state := by
    rw [haged]
    exact halive.symm
  exact decide_eq_true ⟨hid, hchange, haged⟩

/-! ### Deaths in a merge -/

section Merge

variable {m : Membership} {n : NodeInfo}

/-- Merging one record kills a peer if and only if the record is of a peer of the same
cluster, is dead, and wins over one that is not. -/
theorem mergeOne_spares_iff (now : Nat) :
    deathOf m (mergeOne now (m, []) n).1 n.id = [] ↔
      (n.id ≠ m.meId → n.clusterHash = m.meTemplate.clusterHash → n.state = .dead →
        ∀ r, m.members.get? n.id = some r → r.state ≠ .dead → shouldUpdate r n = false) := by
  rw [List.eq_nil_iff_forall_not_mem]
  constructor
  · intro hnone hid hhash hdead r hr halive
    by_contra hwins
    have hlt := (shouldUpdate_iff r n).mp (Bool.eq_true_of_not_eq_false hwins)
    apply hnone n.id
    refine mem_deathOf.mpr ⟨rfl, hid, r, n, hr, ?_, halive, hdead⟩
    rw [mergeOne_get? now (m, []) n hid, hr]
    simp [considers, hhash, better, hlt]
  · intro hspares id hmem
    obtain ⟨rfl, hid, old, new, hold, hnew, halive, hdead⟩ := mem_deathOf.mp hmem
    rw [mergeOne_get? now (m, []) n hid, hold] at hnew
    split at hnew
    · rename_i hconsider
      simp only [considers, decide_eq_true_eq, true_and] at hconsider
      cases hnew
      simp only [Option.elim, better] at hdead
      split at hdead
      · rename_i hlt
        have hloses := hspares hid hconsider hdead old hold halive
        rw [(shouldUpdate_iff old n).mpr hlt] at hloses
        cases hloses
      · exact halive hdead
    · cases hnew
      exact halive hdead

/-- The best record of a peer after one more record of the batch. -/
theorem best?_mergeOne (now : Nat) {id : String} (hid : id ≠ m.meId) (earlier : List NodeInfo) :
    best? precedence ((mergeOne now (m, []) n).1.members.get? id)
        (earlier.filter ((mergeOne now (m, []) n).1.considers id)) =
      best? precedence (m.members.get? id) ((n :: earlier).filter (m.considers id)) := by
  have hconsiders : (mergeOne now (m, []) n).1.considers id = m.considers id := by
    funext r
    simp [considers]
  rw [hconsiders, mergeOne_get? now (m, []) n hid, List.filter_cons]
  split <;> rfl

theorem spares_cons_iff (now : Nat) {incoming : List NodeInfo} :
    Spares m (n :: incoming) ↔
      deathOf m (mergeOne now (m, []) n).1 n.id = [] ∧
        Spares (mergeOne now (m, []) n).1 incoming := by
  have htemplate : (mergeOne now (m, []) n).1.meTemplate = m.meTemplate :=
    mergeOne_meTemplate now (m, []) n
  have hmeId : (mergeOne now (m, []) n).1.meId = m.meId := congrArg (·.id) htemplate
  rw [mergeOne_spares_iff now]
  constructor
  · intro hspares
    constructor
    · intro hid hhash hdead r hr
      exact hspares [] n incoming rfl hid hhash hdead r hr
    · intro earlier n' later hsplit hid hhash hdead r hr
      rw [hmeId] at hid
      rw [htemplate] at hhash
      rw [best?_mergeOne now hid] at hr
      exact hspares (n :: earlier) n' later (by rw [hsplit, List.cons_append]) hid hhash hdead r hr
  · rintro ⟨hfirst, hrest⟩ earlier n' later hsplit hid hhash hdead r hr
    cases earlier with
    | nil =>
        cases hsplit
        exact hfirst hid hhash hdead r hr
    | cons n'' earlier =>
        cases hsplit
        refine hrest earlier n' later rfl ?_ ?_ hdead r ?_
        · rw [hmeId]
          exact hid
        · rw [htemplate]
          exact hhash
        · rw [best?_mergeOne now hid]
          exact hr

/-- The peers whose endpoint is to be updated do not matter for the table. -/
theorem mergeOne_fst (now : Nat) (acc : Membership × List NodeInfo) (n : NodeInfo) :
    (mergeOne now acc n).1 = (mergeOne now (acc.1, []) n).1 := by
  obtain ⟨m, updates⟩ := acc
  simp only [mergeOne]
  split
  · rfl
  · split
    · rfl
    · split
      · split <;> rfl
      · rfl

/-- A peer that a merge finds in another state and leaves dead is among the deaths. -/
theorem mem_mergeDeaths {now : Nat} {incoming : List NodeInfo} {id : String} {old new : NodeInfo}
    (hid : id ≠ m.meId) (hold : m.members.get? id = some old) (halive : old.state ≠ .dead)
    (hnew : (m.merge now incoming).members.get? id = some new) (hdead : new.state = .dead) :
    id ∈ mergeDeaths now m incoming := by
  unfold merge mergeUpdates at hnew
  generalize hacc : (m, ([] : List NodeInfo)) = acc at hnew
  have hm : acc.1 = m := by rw [← hacc]
  clear hacc
  induction incoming generalizing m acc old with
  | nil =>
      rw [List.foldl_nil, hm, hold] at hnew
      cases hnew
      exact absurd hdead halive
  | cons n incoming ih =>
      have hfst : (mergeOne now acc n).1 = (mergeOne now (m, []) n).1 := by
        rw [mergeOne_fst, hm]
      have hmeId : (mergeOne now (m, []) n).1.meId = m.meId :=
        congrArg (·.id) (mergeOne_meTemplate now (m, []) n)
      rw [List.foldl_cons] at hnew
      have hone := mergeOne_get? now (m, []) n hid
      rw [hold] at hone
      by_cases hconsider : m.considers id n = true
      · rw [if_pos hconsider] at hone
        simp only [considers, decide_eq_true_eq] at hconsider
        obtain ⟨rfl, -⟩ := hconsider
        by_cases hbetter : (better precedence old n).state = .dead
        · -- it dies with this record
          apply List.mem_append_left
          exact mem_deathOf.mpr ⟨rfl, hid, old, _, hold, hone, halive, hbetter⟩
        · apply List.mem_append_right
          exact ih (by rw [hmeId]; exact hid) hone hbetter _ hnew hfst
      · rw [if_neg hconsider] at hone
        apply List.mem_append_right
        exact ih (by rw [hmeId]; exact hid) hone halive _ hnew hfst

/-- A merge kills nobody if and only if the batch spares everybody. -/
theorem mergeDeaths_eq_nil_iff (now : Nat) (m : Membership) (incoming : List NodeInfo) :
    mergeDeaths now m incoming = [] ↔ Spares m incoming := by
  induction incoming generalizing m with
  | nil =>
      constructor
      · intro _ earlier n later hsplit
        simp at hsplit
      · intro _
        rfl
  | cons n incoming ih =>
      rw [spares_cons_iff now, ← ih, ← List.append_eq_nil_iff]
      rfl

end Merge

end BlobCache.Cluster.Membership
