import BlobCache.Cluster.Precedence

/-!
The incarnation at its limit. A record about this node is outbid by the next
incarnation above it, and records come from the network with any `u64` in them.
Above `2 ^ 64 - 1` there is none: the sum wraps around to zero, and a node of
incarnation zero is below everything that was ever said about it.
-/

namespace BlobCache.Cluster.Membership

section Bumps

variable {inc : Nat} {n : NodeInfo} {own : List NodeInfo}

/-- A record that takes the node for down is outbid by a higher incarnation only. -/
theorem Outbid.lt (h : Outbid n inc) (hdown : n.state ≠ .alive) : n.incarnation < inc :=
  h.resolve_right fun heq => hdown heq.2

theorem refutedIncarnation_eq (hinc : inc < 2 ^ 64) :
    refutedIncarnation inc n = bumped inc n % 2 ^ 64 := by
  unfold refutedIncarnation bumped
  split
  · rfl
  · exact (Nat.mod_eq_of_lt hinc).symm

/-- Only a record at the limit takes the sum to it, and the sum is then zero. -/
theorem refutedIncarnation_wraps (hinc : inc < 2 ^ 64) (hn : n.incarnation < 2 ^ 64)
    (hover : ¬bumped inc n < 2 ^ 64) :
    n.incarnation = 2 ^ 64 - 1 ∧ refutedIncarnation inc n = 0 := by
  rw [refutedIncarnation_eq hinc]
  unfold bumped at hover ⊢
  split at hover
  · rename_i hbids
    have hmax : n.incarnation = 2 ^ 64 - 1 := by omega
    rw [if_pos hbids, hmax, Nat.max_eq_left (by omega)]
    exact ⟨rfl, rfl⟩
  · exact absurd hinc hover

/-- As long as no sum reaches the limit, there is none. -/
theorem foldl_refutedIncarnation (hfits : own.foldl bumped inc < 2 ^ 64) :
    own.foldl refutedIncarnation inc = own.foldl bumped inc := by
  induction own generalizing inc with
  | nil => rfl
  | cons n own ih =>
      have hn : bumped inc n < 2 ^ 64 := (le_foldl_bumped _ own).trans_lt hfits
      have hinc : inc < 2 ^ 64 := (le_bumped inc n).trans_lt hn
      rw [List.foldl_cons, refutedIncarnation_eq hinc, Nat.mod_eq_of_lt hn]
      exact ih hfits

theorem foldl_refutedIncarnation_lt (hinc : inc < 2 ^ 64) (own : List NodeInfo) :
    own.foldl refutedIncarnation inc < 2 ^ 64 := by
  induction own generalizing inc with
  | nil => exact hinc
  | cons n own ih =>
      apply ih
      rw [refutedIncarnation_eq hinc]
      exact Nat.mod_lt _ (by decide)

/-- A node at the limit stays there, unless a record at the limit takes it for down. -/
theorem foldl_refutedIncarnation_max (hown : ∀ n ∈ own, n.incarnation < 2 ^ 64)
    (hdown : ∀ n ∈ own, n.state ≠ .alive → n.incarnation < 2 ^ 64 - 1) :
    own.foldl refutedIncarnation (2 ^ 64 - 1) = 2 ^ 64 - 1 := by
  induction own with
  | nil => rfl
  | cons n own ih =>
      have hn := hown n List.mem_cons_self
      have hquiet : ¬(n.incarnation > 2 ^ 64 - 1 ∨
          (n.incarnation = 2 ^ 64 - 1 ∧ n.state ≠ .alive)) := by
        rintro (hlt | ⟨heq, hstate⟩)
        · omega
        · have := hdown n List.mem_cons_self hstate
          omega
      rw [List.foldl_cons, refutedIncarnation, if_neg hquiet]
      exact ih (fun a ha => hown a (List.mem_cons_of_mem n ha))
        fun a ha => hdown a (List.mem_cons_of_mem n ha)

/-- What the loop computes: the sums without a limit, from the start or from zero after the
last record that took the sum to the limit. -/
theorem last_wrap (hinc : inc < 2 ^ 64) (hown : ∀ n ∈ own, n.incarnation < 2 ^ 64) :
    own.foldl bumped inc < 2 ^ 64 ∨
      ∃ pre n post, own = pre ++ n :: post ∧ n.incarnation = 2 ^ 64 - 1 ∧
        post.foldl bumped 0 < 2 ^ 64 ∧
        own.foldl refutedIncarnation inc = post.foldl bumped 0 := by
  induction own using List.reverseRecOn with
  | nil => exact .inl hinc
  | append_singleton own n ih =>
      have hlt := foldl_refutedIncarnation_lt hinc own
      have hn := hown n (by simp)
      by_cases hover : bumped (own.foldl refutedIncarnation inc) n < 2 ^ 64
      · rcases ih fun a ha => hown a (List.mem_append_left _ ha) with
          hfits | ⟨pre, k, post, rfl, hk, hfits, heq⟩
        · rw [foldl_refutedIncarnation hfits] at hover
          rw [List.foldl_concat]
          exact .inl hover
        · rw [heq] at hover
          refine .inr ⟨pre, k, post ++ [n], by simp, hk, ?_, ?_⟩
          · rw [List.foldl_concat]
            exact hover
          · rw [List.foldl_concat, List.foldl_concat, heq, refutedIncarnation_eq hfits,
              Nat.mod_eq_of_lt hover]
      · obtain ⟨hmax, hzero⟩ := refutedIncarnation_wraps hlt hn hover
        refine .inr ⟨own, n, [], rfl, hmax, by decide, ?_⟩
        rw [List.foldl_concat]
        exact hzero

end Bumps

/-- The incarnation is not lowered by the batch and ends above every record of it that
takes this node for down. -/
def Unlowered (m : Membership) (now : Nat) (batch : List NodeInfo) : Prop :=
  m.meIncarnation ≤ (m.merge now batch).meIncarnation ∧
    ∀ n ∈ batch, n.id = m.meId → n.state ≠ .alive →
      n.incarnation < (m.merge now batch).meIncarnation

/-- A record at the limit that takes the node for alive took the sum to it, and the records
after that lift the incarnation again, above what it was and what the earlier ones claim. -/
def LiftedAgain (inc : Nat) (own : List NodeInfo) : Prop :=
  ∃ pre n post, own = pre ++ n :: post ∧ n.incarnation = 2 ^ 64 - 1 ∧ n.state = .alive ∧
    post.foldl bumped 0 < 2 ^ 64 ∧ inc ≤ post.foldl bumped 0 ∧
    ∀ a ∈ pre, a.state ≠ .alive → a.incarnation < post.foldl bumped 0

theorem LiftedAgain.unlowered {inc : Nat} {own : List NodeInfo} (h : LiftedAgain inc own)
    (hinc : inc < 2 ^ 64) (hown : ∀ n ∈ own, n.incarnation < 2 ^ 64) :
    inc ≤ own.foldl refutedIncarnation inc ∧
      ∀ a ∈ own, a.state ≠ .alive → a.incarnation < own.foldl refutedIncarnation inc := by
  obtain ⟨pre, n, post, rfl, hmax, halive, hfits, hle, hpre⟩ := h
  have hdown : ∀ a ∈ pre ++ n :: post, a.state ≠ .alive → a.incarnation < post.foldl bumped 0 := by
    intro a ha hdown
    rcases List.mem_append.mp ha with ha | ha
    · exact hpre a ha hdown
    · rcases List.mem_cons.mp ha with rfl | ha
      · exact absurd halive hdown
      · exact (outbid_foldl_bumped ha 0).lt hdown
  rw [List.foldl_append, List.foldl_cons]
  have hlt := foldl_refutedIncarnation_lt hinc pre
  generalize pre.foldl refutedIncarnation inc = inc₁ at hlt
  by_cases hsame : inc₁ = 2 ^ 64 - 1
  · -- The node is at the limit itself, and nothing changes.
    have hpost : ∀ a ∈ n :: post, a ∈ pre ++ n :: post := fun a => List.mem_append_right pre
    have hstays := @foldl_refutedIncarnation_max (n :: post) (fun a ha => hown a (hpost a ha))
      fun a ha hstate => by
        have := hdown a (hpost a ha) hstate
        omega
    rw [hsame]
    rw [List.foldl_cons] at hstays
    rw [hstays]
    refine ⟨by omega, ?_⟩
    intro a ha hstate
    have := hdown a ha hstate
    omega
  · have hwraps : ¬bumped inc₁ n < 2 ^ 64 := by
      unfold bumped
      rw [if_pos (.inl (by omega)), hmax]
      omega
    rw [(refutedIncarnation_wraps hlt (by omega) hwraps).2, foldl_refutedIncarnation hfits]
    exact ⟨hle, hdown⟩

/-- The incarnation is not lowered exactly when no sum reaches the limit, or the incarnation is
lifted again afterwards. -/
theorem incarnation_unlowered (m : Membership) (now : Nat) (batch : List NodeInfo)
    (hme : m.meIncarnation < 2 ^ 64) (hbatch : ∀ n ∈ batch, n.incarnation < 2 ^ 64) :
    Unlowered m now batch ↔ (m.own batch).foldl bumped m.meIncarnation < 2 ^ 64 ∨
      LiftedAgain m.meIncarnation (m.own batch) := by
  have hown : ∀ n ∈ m.own batch, n.incarnation < 2 ^ 64 := by
    intro n hn
    exact hbatch n (List.mem_filter.mp hn).1
  have hiff : Unlowered m now batch ↔
      m.meIncarnation ≤ (m.own batch).foldl refutedIncarnation m.meIncarnation ∧
        ∀ a ∈ m.own batch, a.state ≠ .alive →
          a.incarnation < (m.own batch).foldl refutedIncarnation m.meIncarnation := by
    simp only [Unlowered, merge_meIncarnation, own, List.mem_filter, decide_eq_true_eq, and_imp]
  rw [hiff]
  constructor
  · rintro ⟨hle, hall⟩
    rcases last_wrap hme hown with hfits | ⟨pre, n, post, hsplit, hmax, hfits, heq⟩
    · exact .inl hfits
    · rw [heq] at hle hall
      have hn : n ∈ m.own batch := by simp [hsplit]
      have halive : n.state = .alive := by
        by_contra hdown
        have := hall n hn hdown
        omega
      refine .inr ⟨pre, n, post, hsplit, hmax, halive, hfits, hle, ?_⟩
      intro a ha
      exact hall a (by simp [hsplit, ha])
  · rintro (hfits | hlifted)
    · rw [foldl_refutedIncarnation hfits]
      exact ⟨le_foldl_bumped _ _, fun a ha hdown => (outbid_foldl_bumped ha _).lt hdown⟩
    · exact hlifted.unlowered hme hown

/-- A claim at the limit, with the state that it takes the node for. -/
def limitClaim (state : NodeState) : NodeInfo :=
  { samplePeer "x" "h" with state := state, incarnation := 2 ^ 64 - 1 }

/-- A claim just below the limit takes the node to the limit, where another one at the limit
does not move it. -/
theorem incarnation_unlowered_at_limit :
    Unlowered (Membership.new (samplePeer "x" "h") ⟨0, 0, 0, 0⟩) 60
      [{ limitClaim .dead with incarnation := 2 ^ 64 - 2 }, limitClaim .alive] :=
  (incarnation_unlowered (Membership.new (samplePeer "x" "h") ⟨0, 0, 0, 0⟩) 60
    [{ limitClaim .dead with incarnation := 2 ^ 64 - 2 }, limitClaim .alive] (by decide)
    (by decide)).mpr (.inl (by decide +kernel))

/-- A record at the limit lowers the incarnation to zero, below the record. -/
theorem limit_claim_lowers :
    ∃ (m : Membership) (n : NodeInfo), n.id = m.meId ∧ n.state = .dead ∧
      n.incarnation < 2 ^ 64 ∧ m.meIncarnation = 1 ∧
      (m.merge 60 [n]).meIncarnation = 0 ∧ ¬ Unlowered m 60 [n] := by
  have hlow : ((Membership.new (samplePeer "x" "h") ⟨0, 0, 0, 0⟩).merge 60
      [limitClaim .dead]).meIncarnation = 0 := by decide +kernel
  refine ⟨Membership.new (samplePeer "x" "h") ⟨0, 0, 0, 0⟩, limitClaim .dead, rfl, rfl,
    by decide, by decide, hlow, ?_⟩
  rintro ⟨hle, -⟩
  rw [hlow] at hle
  exact absurd hle (by decide)

end BlobCache.Cluster.Membership
