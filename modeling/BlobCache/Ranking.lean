import BlobCache.Hrw

/-!
The ranking of peers for a chunk. `rank_candidates` fills two lists in one pass over
the peers in descending order of their score; each list has its own budget, and
which list a peer belongs to depends on the filter that is held for it alone.
-/

namespace BlobCache

/-- `s` has the elements of `l` in descending order of their scores. -/
structure Descending {α : Type} (score : α → Nat) (l s : List α) : Prop where
  perm : s.Perm l
  sorted : s.Pairwise fun a b => score b < score a

namespace Descending

variable {α : Type} {score : α → Nat} {l l' s s' : List α}

theorem filter (h : Descending score l s) (p : α → Bool) :
    Descending score (l.filter p) (s.filter p) :=
  ⟨h.perm.filter p, h.sorted.sublist List.filter_sublist⟩

/-- There is one such order. -/
theorem unique (h : Descending score l s) (h' : Descending score l' s') (hperm : l'.Perm l) :
    s' = s := by
  apply List.Perm.eq_of_pairwise _ h'.sorted h.sorted
  · exact h'.perm.trans (hperm.trans h.perm.symm)
  · intro a b _ _ hab hba
    exact absurd (hab.trans hba) (lt_irrefl _)

end Descending

namespace PeerIndex

variable (p : PeerIndex) (digest : Digest)

/-- The filter that is held for the peer contains the key. -/
def positive (n : NodeInfo) : Bool :=
  (p.remote.get? n.id).any fun r => r.bloom.contains digest

/-- No filter is held for the peer. -/
def unknown (n : NodeInfo) : Bool := (p.remote.get? n.id).isNone

variable {p digest}

/-- The pass over the peers, from any pair of lists. -/
theorem rankLoop_eq (maxYes maxMaybe : Nat) (acc : CandidateSet) (peers : List NodeInfo) :
    p.rankLoop digest maxYes maxMaybe acc peers =
      ⟨acc.yes ++ (peers.filter (p.positive digest)).take (maxYes - acc.yes.length),
        acc.maybe ++ (peers.filter p.unknown).take (maxMaybe - acc.maybe.length)⟩ := by
  induction peers generalizing acc with
  | nil => simp [rankLoop]
  | cons n peers ih =>
      unfold rankLoop
      cases hremote : p.remote.get? n.id with
      | none =>
          have hpos : p.positive digest n = false := by simp [positive, hremote]
          have hunk : p.unknown n = true := by simp [unknown, hremote]
          rw [List.filter_cons_of_neg (p := p.positive digest) (by simp [hpos]),
            List.filter_cons_of_pos hunk]
          dsimp only
          split
          · rename_i hroom
            obtain ⟨k, hk⟩ := Nat.exists_eq_add_of_lt hroom
            have hleft : maxMaybe - acc.maybe.length = k + 1 := by omega
            have hrest : maxMaybe - (acc.maybe.length + 1) = k := by omega
            rw [ih, hleft, List.take_succ_cons]
            simp [hrest]
          · rename_i hfull
            have hleft : maxMaybe - acc.maybe.length = 0 := by omega
            rw [ih, hleft]
            simp
      | some r =>
          have hunk : p.unknown n = false := by simp [unknown, hremote]
          rw [List.filter_cons_of_neg (p := p.unknown) (by simp [hunk])]
          dsimp only
          by_cases hcontains : r.bloom.contains digest = true
          · have hpos : p.positive digest n = true := by simp [positive, hremote, hcontains]
            rw [List.filter_cons_of_pos hpos]
            split
            · rename_i hroom
              obtain ⟨k, hk⟩ := Nat.exists_eq_add_of_lt hroom.2
              have hleft : maxYes - acc.yes.length = k + 1 := by omega
              have hrest : maxYes - (acc.yes.length + 1) = k := by omega
              rw [ih, hleft, List.take_succ_cons]
              simp [hrest]
            · rename_i hfull
              have hleft : maxYes - acc.yes.length = 0 := by
                have : ¬ acc.yes.length < maxYes := fun hroom => hfull ⟨hcontains, hroom⟩
                omega
              rw [ih, hleft]
              simp
          · have hpos : p.positive digest n = false := by
              simp [positive, hremote, hcontains]
            rw [List.filter_cons_of_neg (p := p.positive digest) (by simp [hpos]),
              if_neg fun h => hcontains h.1, ih]

variable (cfg : PeerIndexConfig) (key : ChunkKey)

/-- The peers in the order in which `rank_candidates` looks at them. -/
def scoredPeers (alive : List NodeInfo) : List NodeInfo :=
  ((alive.map fun n => (hrwScore cfg.sha256 n.id (keyDigest cfg.sha256 key), n)).insertionSort
    fun a b => b.1 ≤ a.1).map Prod.snd

variable {cfg key}

/-- Where scores are distinct, the stable sort leaves one order. -/
theorem scoredPeers_descending {alive : List NodeInfo}
    (hscores : (alive.map fun n => keyScore cfg.sha256 key n.id).Nodup) :
    Descending (fun n : NodeInfo => keyScore cfg.sha256 key n.id) alive
      (scoredPeers cfg key alive) := by
  let scored := alive.map fun n => (hrwScore cfg.sha256 n.id (keyDigest cfg.sha256 key), n)
  have hperm : (scored.insertionSort fun a b => b.1 ≤ a.1).Perm scored :=
    List.perm_insertionSort _ _
  have hpeers : (scoredPeers cfg key alive).Perm alive := by
    have hsecond : scored.map Prod.snd = alive := by
      rw [List.map_map]
      exact List.map_id alive
    have hmap := hperm.map Prod.snd
    rwa [hsecond] at hmap
  -- the pairs are sorted by their first component, which is the score of the second
  have htotal : Std.Total fun a b : Nat × NodeInfo => b.1 ≤ a.1 :=
    ⟨fun a b => le_total b.1 a.1⟩
  have htrans : IsTrans (Nat × NodeInfo) fun a b => b.1 ≤ a.1 :=
    ⟨fun _ _ _ hab hbc => le_trans hbc hab⟩
  have hsorted : (scored.insertionSort fun a b => b.1 ≤ a.1).Pairwise fun a b => b.1 ≤ a.1 :=
    List.pairwise_insertionSort _ _
  have hfirst : ∀ x ∈ scored.insertionSort fun a b => b.1 ≤ a.1,
      x.1 = keyScore cfg.sha256 key x.2.id := by
    intro x hx
    obtain ⟨n, -, rfl⟩ := List.mem_map.mp (hperm.mem_iff.mp hx)
    rfl
  have hdesc : (scoredPeers cfg key alive).Pairwise fun a b =>
      keyScore cfg.sha256 key b.id ≤ keyScore cfg.sha256 key a.id := by
    apply List.pairwise_map.mpr
    apply hsorted.imp_of_mem
    intro a b ha hb hle
    rwa [← hfirst a ha, ← hfirst b hb]
  have hne : (scoredPeers cfg key alive).Pairwise fun a b =>
      keyScore cfg.sha256 key a.id ≠ keyScore cfg.sha256 key b.id :=
    List.pairwise_map.mp ((hpeers.map _).nodup_iff.mpr hscores)
  refine ⟨hpeers, hdesc.imp₂ ?_ hne⟩
  intro a b hle hneq
  exact lt_of_le_of_ne hle hneq.symm

theorem rankCandidates_eq (alive : List NodeInfo) (maxYes maxMaybe : Nat) :
    p.rankCandidates cfg key alive maxYes maxMaybe =
      ⟨((scoredPeers cfg key alive).filter (p.positive (keyDigest cfg.sha256 key))).take maxYes,
        ((scoredPeers cfg key alive).filter p.unknown).take maxMaybe⟩ := by
  rw [rankCandidates, rankLoop_eq]
  simp [scoredPeers]

/-- What `rank_candidates` returns: the best peers among those whose filter contains the
key and the best among those of which no filter is known, each within its own budget. -/
theorem rankCandidates_best (p : PeerIndex) (alive : List NodeInfo) (maxYes maxMaybe : Nat)
    (hscores : (alive.map fun n => keyScore cfg.sha256 key n.id).Nodup) :
    let got := p.rankCandidates cfg key alive maxYes maxMaybe
    let score := fun n : NodeInfo => keyScore cfg.sha256 key n.id
    (∃ s, Descending score (alive.filter (p.positive (keyDigest cfg.sha256 key))) s ∧
      got.yes = s.take maxYes) ∧
    (∃ s, Descending score (alive.filter p.unknown) s ∧ got.maybe = s.take maxMaybe) ∧
    (∀ n ∈ got.yes, n ∉ got.maybe) ∧
    (∀ n r, p.remote.get? n.id = some r → r.bloom.contains (keyDigest cfg.sha256 key) = false →
      n ∉ got.yes ∧ n ∉ got.maybe) ∧
    (∀ other, (p.rankCandidates cfg key alive maxYes other).yes = got.yes ∧
      (p.rankCandidates cfg key alive other maxMaybe).maybe = got.maybe) ∧
    ∀ alive', alive'.Perm alive →
      p.rankCandidates cfg key alive' maxYes maxMaybe = got := by
  have hdesc := scoredPeers_descending hscores
  have hyes : ∀ n ∈ (p.rankCandidates cfg key alive maxYes maxMaybe).yes,
      p.positive (keyDigest cfg.sha256 key) n = true := by
    intro n hn
    rw [rankCandidates_eq] at hn
    exact (List.mem_filter.mp (List.mem_of_mem_take hn)).2
  have hmaybe : ∀ n ∈ (p.rankCandidates cfg key alive maxYes maxMaybe).maybe,
      p.unknown n = true := by
    intro n hn
    rw [rankCandidates_eq] at hn
    exact (List.mem_filter.mp (List.mem_of_mem_take hn)).2
  refine ⟨⟨_, hdesc.filter _, ?_⟩, ⟨_, hdesc.filter _, ?_⟩, ?_, ?_, ?_, ?_⟩
  · rw [rankCandidates_eq]
  · rw [rankCandidates_eq]
  · intro n hn hn'
    have hpos := hyes n hn
    have hnone : p.remote.get? n.id = none := Option.isNone_iff_eq_none.mp (hmaybe n hn')
    rw [positive, hnone] at hpos
    cases hpos
  · intro n r hremote hneg
    constructor
    · intro hn
      have hpos := hyes n hn
      rw [positive, hremote, Option.any_some, hneg] at hpos
      cases hpos
    · intro hn
      have hnone : p.remote.get? n.id = none := Option.isNone_iff_eq_none.mp (hmaybe n hn)
      rw [hremote] at hnone
      cases hnone
  · intro other
    simp only [rankCandidates_eq, and_self]
  · intro alive' hperm
    have hscores' : (alive'.map fun n => keyScore cfg.sha256 key n.id).Nodup :=
      (hperm.map _).nodup_iff.mpr hscores
    rw [rankCandidates_eq, rankCandidates_eq,
      hdesc.unique (scoredPeers_descending hscores') hperm]

/-- A filter with the key is held for `a`, and none for any other peer. -/
def sampleIndex : PeerIndex :=
  let full : Bloom := (Bloom.new 64).insert
    (keyDigest firstByteSha256 ⟨"m", "b", 0⟩)
  { PeerIndex.new ⟨firstByteSha256, "me", 64⟩ with
    remote := (∅ : FinMap String RemoteBloom).insert "a" ⟨1, full⟩ }

theorem rankCandidates_best_of_three :
    ∃ s, Descending (fun n : NodeInfo => keyScore firstByteSha256 ⟨"m", "b", 0⟩ n.id)
        [⟨"b", "", none⟩, ⟨"c", "", none⟩] s ∧
      (sampleIndex.rankCandidates ⟨firstByteSha256, "me", 64⟩ ⟨"m", "b", 0⟩
        [⟨"a", "", none⟩, ⟨"b", "", none⟩, ⟨"c", "", none⟩] 4 1).maybe = s.take 1 :=
  (@rankCandidates_best ⟨firstByteSha256, "me", 64⟩ ⟨"m", "b", 0⟩ sampleIndex
    [⟨"a", "", none⟩, ⟨"b", "", none⟩, ⟨"c", "", none⟩] 4 1 (by decide +kernel)).2.1

end PeerIndex

end BlobCache
