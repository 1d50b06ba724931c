import BlobCache.Data.Holders
import BlobCache.Fetcher.State

/-!
The receive buffers of the UCX client: `RecvSlab`, one registered buffer cut into
slots of equal size, with a free list and a semaphore of as many permits as slots.
A fetch waits for a permit, takes an index from the free list, receives into its
slot, gives the index back and then drops the permit.

`as_mut_slice` computes where a slot starts and checks the length in debug builds
only, so that in a release build nothing here keeps a slice inside its slot.
-/

namespace BlobCache.Ucx

open Holders

/-- The last element of the vector `free` comes first here. -/
structure RecvSlab where
  slotSize : Nat
  nSlots : Nat
  free : List Nat
  permits : Nat

namespace RecvSlab

/-- A new slab: all slots are free and all permits are there. -/
def fresh (nSlots slotSize : Nat) : RecvSlab := ⟨slotSize, nSlots, List.range nSlots, nSlots⟩

/-- The length of `backing`. -/
def backingLen (slab : RecvSlab) : Nat := slab.nSlots * slab.slotSize

/-- The first half of `checkout`; it waits when there is no permit. -/
def acquire (slab : RecvSlab) : Option RecvSlab :=
  if slab.permits = 0 then none else some { slab with permits := slab.permits - 1 }

/-- The second half of `checkout`. -/
def pop (slab : RecvSlab) : Option Nat × RecvSlab :=
  match slab.free with
  | [] => (none, slab)
  | idx :: free => (some idx, { slab with free := free })

/-- `drop` of a slot. -/
def push (slab : RecvSlab) (idx : Nat) : RecvSlab := { slab with free := idx :: slab.free }

/-- The drop of the permit, which comes after that of the slot. -/
def releasePermit (slab : RecvSlab) : RecvSlab := { slab with permits := slab.permits + 1 }

def desync : BcError := .peer "RecvSlab free list empty (semaphore desync)"

/-- Where the slice of `as_mut_slice` starts. -/
def start (slab : RecvSlab) (idx : Nat) : Nat := idx * slab.slotSize

end RecvSlab

/-! ## Who has what -/

/-- What a fetch has of the slab: a permit and no index yet, an index, or only the
permit again. -/
inductive Hold where
  | permit
  | slot (idx : Nat)
  | returned
  deriving DecidableEq, Repr

def Hold.place : Hold → Option Nat
  | .slot idx => some idx
  | .permit | .returned => none

/-- The indices are free or with a fetch, and every permit is there or with a fetch. -/
structure SlabOk (slab : RecvSlab) (holds : FinMap Nat Hold) : Prop where
  dealt : Dealt slab.nSlots slab.free Hold.place holds
  permits : slab.permits + FinMap.total (fun _ => 1) holds = slab.nSlots

namespace SlabOk

variable {slab slab' : RecvSlab} {holds : FinMap Nat Hold} {t idx : Nat}

theorem fresh (nSlots slotSize : Nat) : SlabOk (.fresh nSlots slotSize) ∅ :=
  ⟨Dealt.empty nSlots Hold.place, rfl⟩

theorem acquire (h : SlabOk slab holds) (hfree : holds.get? t = none)
    (hacquire : slab.acquire = some slab') : SlabOk slab' (holds.insert t .permit) := by
  unfold RecvSlab.acquire at hacquire
  split at hacquire
  · cases hacquire
  · cases hacquire
    have hpermits := h.permits
    refine ⟨h.dealt.enter hfree rfl, ?_⟩
    rw [FinMap.total_insert_of_none _ _ hfree]
    dsimp only
    omega

/-- A fetch with a permit finds a free index. -/
theorem free_of_permit (h : SlabOk slab holds) (hheld : holds.get? t = some .permit) :
    slab.free ≠ [] := by
  have hpermits := h.permits
  have hall := h.dealt.all
  have hwithout := FinMap.total_erase (fun v => anyPlace (Hold.place v)) hheld
  have hrest := FinMap.total_erase (fun _ => 1) hheld
  have hle : FinMap.total (fun v => anyPlace (Hold.place v)) (holds.erase t) ≤
      FinMap.total (fun _ => 1) (holds.erase t) := by
    apply FinMap.total_mono
    intro v
    unfold anyPlace
    split <;> decide
  have hzero : anyPlace (Hold.place .permit) = 0 := rfl
  intro hempty
  rw [hempty] at hall
  unfold weight at hall
  simp only [List.length_nil] at hall
  omega

theorem pop (h : SlabOk slab holds) (hheld : holds.get? t = some .permit)
    (hpop : slab.pop = (some idx, slab')) : SlabOk slab' (holds.insert t (.slot idx)) := by
  have hdealt := h.dealt
  have hpermits := h.permits
  have htotal := FinMap.total_replace (fun _ => 1) (.slot idx) hheld
  unfold RecvSlab.pop at hpop
  split at hpop
  · cases hpop
  · rename_i hfree
    cases hpop
    rw [hfree] at hdealt
    refine ⟨hdealt.take hheld rfl rfl, ?_⟩
    dsimp only
    omega

theorem push (h : SlabOk slab holds) (hheld : holds.get? t = some (.slot idx)) :
    SlabOk (slab.push idx) (holds.insert t .returned) := by
  have hpermits := h.permits
  have htotal := FinMap.total_replace (fun _ => 1) .returned hheld
  refine ⟨h.dealt.give hheld rfl rfl, ?_⟩
  dsimp only [RecvSlab.push]
  omega

theorem releasePermit (h : SlabOk slab holds) (hheld : holds.get? t = some .returned) :
    SlabOk slab.releasePermit (holds.erase t) := by
  have hpermits := h.permits
  have htotal := FinMap.total_erase (fun _ => 1) hheld
  refine ⟨h.dealt.leave hheld rfl, ?_⟩
  dsimp only [RecvSlab.releasePermit]
  omega

end SlabOk

/-! ## Where a slice lies -/

section Slices

variable {slab : RecvSlab} {idx idx' len len' : Nat}

/-- A slice that is not longer than a slot ends where the next slot starts, at most. -/
theorem slice_in_slot (hlen : len ≤ slab.slotSize) :
    slab.start idx + len ≤ slab.start (idx + 1) := by
  simp only [RecvSlab.start, Nat.add_mul, Nat.one_mul]
  omega

theorem start_mono (h : idx ≤ idx') : slab.start idx ≤ slab.start idx' :=
  Nat.mul_le_mul_right _ h

theorem slice_in_backing (hidx : idx < slab.nSlots) (hlen : len ≤ slab.slotSize) :
    slab.start idx + len ≤ slab.backingLen :=
  (slice_in_slot hlen).trans (start_mono hidx)

/-- Slices in different slots do not overlap. -/
theorem slices_disjoint (hne : idx ≠ idx') (hlen : len ≤ slab.slotSize)
    (hlen' : len' ≤ slab.slotSize) :
    slab.start idx + len ≤ slab.start idx' ∨ slab.start idx' + len' ≤ slab.start idx := by
  rcases Nat.lt_or_gt_of_ne hne with hlt | hgt
  · exact .inl ((slice_in_slot hlen).trans (start_mono hlt))
  · exact .inr ((slice_in_slot hlen').trans (start_mono hgt))

end Slices

end BlobCache.Ucx
