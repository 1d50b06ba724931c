import Mathlib.Data.Finset.Max
import BlobCache.Data.Best
import BlobCache.PeerIndex

/-!
Who owns a key by rendezvous hashing. Every node folds over its own list of
live peers and starts from itself; where scores are distinct they all end at
the node of the highest score, and a change of membership moves the key only
away from the node that left or towards the node that came.
-/

namespace BlobCache

variable (sha256 : Bytes → Digest) (key : ChunkKey)

/-- A node's score for a key. -/
def keyScore (id : String) : Nat := hrwScore sha256 id (keyDigest sha256 key)

/-- `owner` is what every node of `view` computes from a list of the others. -/
def OwnerIn (view : Finset String) (owner : String) : Prop :=
  ∀ meId ∈ view, ∀ alive : List NodeInfo,
    (∀ id, id ∈ alive.map (·.id) ↔ id ∈ view.erase meId) →
      hrwTopId sha256 meId key alive = owner

theorem hrwTopId_eq_best (meId : String) (alive : List NodeInfo) :
    hrwTopId sha256 meId key alive =
      best (keyScore sha256 key) meId (alive.map (·.id)) := by
  unfold hrwTopId
  induction alive generalizing meId with
  | nil => rfl
  | cons n alive ih =>
      simp only [List.foldl_cons, List.map_cons]
      -- The pair carries the score of the best so far next to its id.
      by_cases hlt : keyScore sha256 key meId < keyScore sha256 key n.id
      · have hstep : better (keyScore sha256 key) meId n.id = n.id := if_pos hlt
        change _ = best _ (better (keyScore sha256 key) meId n.id) _
        rw [hstep, ← ih n.id]
        simp only [keyScore] at hlt
        simp only [hlt, if_true]
      · have hstep : better (keyScore sha256 key) meId n.id = meId := if_neg hlt
        change _ = best _ (better (keyScore sha256 key) meId n.id) _
        rw [hstep, ← ih meId]
        simp only [keyScore] at hlt
        simp only [hlt, if_false]

variable {sha256 key}

theorem ownerIn_of_max {view : Finset String} {owner : String}
    (hinj : Set.InjOn (keyScore sha256 key) view) (howner : owner ∈ view)
    (hmax : ∀ id ∈ view, keyScore sha256 key id ≤ keyScore sha256 key owner) :
    OwnerIn sha256 key view owner := by
  intro meId hme alive halive
  rw [hrwTopId_eq_best]
  have hlisted : ∀ id, id ∈ meId :: alive.map (·.id) ↔ id ∈ view := by
    intro id
    rw [List.mem_cons, halive, Finset.mem_erase]
    constructor
    · rintro (rfl | ⟨-, hid⟩)
      · exact hme
      · exact hid
    · intro hid
      by_cases heq : id = meId
      · exact .inl heq
      · exact .inr ⟨heq, hid⟩
  apply best_eq_of_max (s := view) _ hinj
  · intro id hid
    exact (hlisted id).mp hid
  · exact (hlisted owner).mpr howner
  · exact hmax

/-- Ownership is agreed: what one node of the view computes is the node of the
highest score, and the same for all of them. A membership change moves the key
no more than it has to. -/
theorem hrw_owner_agreed (view : Finset String)
    (hinj : Set.InjOn (keyScore sha256 key) view) (meId : String) (hme : meId ∈ view)
    (alive : List NodeInfo) (halive : ∀ id, id ∈ alive.map (·.id) ↔ id ∈ view.erase meId)
    (owner : String) (howner : owner = hrwTopId sha256 meId key alive) :
    owner ∈ view ∧ (∀ id ∈ view, keyScore sha256 key id ≤ keyScore sha256 key owner) ∧
      OwnerIn sha256 key view owner ∧
      (∀ gone ∈ view, gone ≠ owner → OwnerIn sha256 key (view.erase gone) owner) ∧
      ∀ new, Set.InjOn (keyScore sha256 key) (insert new view : Finset String) →
        OwnerIn sha256 key (insert new view) owner ∨
          OwnerIn sha256 key (insert new view) new := by
  obtain ⟨top, htop, hmax⟩ := view.exists_max_image (keyScore sha256 key) ⟨meId, hme⟩
  have hagreed := ownerIn_of_max hinj htop hmax
  obtain rfl : owner = top := howner.trans (hagreed meId hme alive halive)
  refine ⟨htop, hmax, hagreed, ?_, ?_⟩
  · intro gone _ hgone
    apply ownerIn_of_max
    · exact hinj.mono (Finset.coe_subset.mpr (Finset.erase_subset gone view))
    · exact Finset.mem_erase.mpr ⟨hgone.symm, htop⟩
    · intro id hid
      exact hmax id (Finset.mem_of_mem_erase hid)
  · intro new hnew
    rcases le_total (keyScore sha256 key new) (keyScore sha256 key owner) with hle | hle
    · left
      apply ownerIn_of_max hnew (Finset.mem_insert_of_mem htop)
      intro id hid
      rcases Finset.mem_insert.mp hid with rfl | hid
      · exact hle
      · exact hmax id hid
    · right
      apply ownerIn_of_max hnew (Finset.mem_insert_self new view)
      intro id hid
      rcases Finset.mem_insert.mp hid with rfl | hid
      · exact le_rfl
      · exact (hmax id hid).trans hle

/-- A hash that ranks ids by their first byte. -/
def firstByteSha256 (b : Bytes) : Digest := .replicate 32 (b.headD 0)

theorem hrw_owner_agreed_of_two :
    OwnerIn firstByteSha256 ⟨"m", "b", 0⟩ {"a", "b"} "b" ∧
      OwnerIn firstByteSha256 ⟨"m", "b", 0⟩ (({"a", "b"} : Finset String).erase "a") "b" := by
  have hagreed := @hrw_owner_agreed firstByteSha256 ⟨"m", "b", 0⟩ {"a", "b"} (by decide +kernel)
    "a" (by decide) [⟨"b", "", none⟩, ⟨"b", "", none⟩] (by simp) "b" (by decide +kernel)
  exact ⟨hagreed.2.2.1, hagreed.2.2.2.1 "a" (by decide) (by decide)⟩

end BlobCache
