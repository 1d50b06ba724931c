import BlobCache.Data.Holders
import BlobCache.Fetcher.State

/-!
The endpoints of the UCX runtime: `RuntimeState` with its two maps by peer id and
the operations on them. An endpoint is numbered in the order of creation. A slot
counts the checkouts of its endpoint, and leaves the map only when there is none:
when the address of its peer changed, or when it broke.

What `ucp_ep_create` answers is the environment's. The flag of a broken endpoint is
part of its slot here; once the slot is gone it only decides how the endpoint is
closed. The log line about the lanes is left out.
-/

namespace BlobCache.Ucx

structure EndpointSlot where
  ep : Nat
  broken : Bool
  peerAddrBlob : Bytes
  inFlight : Nat
  deriving DecidableEq

structure CheckedOutEndpoint where
  peerId : String
  ep : Nat
  deriving DecidableEq

/-- `created` is the number of endpoints created so far. -/
structure RuntimeState where
  localPeerId : String
  peerEps : FinMap String EndpointSlot
  peerAddrBlobs : FinMap String Bytes
  created : Nat

namespace RuntimeState

def new (localPeerId : String) : RuntimeState := ⟨localPeerId, ∅, ∅, 0⟩

/-- Returns the endpoint that is taken out of the map, if any, for closing. -/
def updatePeerAddrBlob (rt : RuntimeState) (peerId : String) (peerAddrBlob : Bytes) :
    Option Nat × RuntimeState :=
  let rt := { rt with peerAddrBlobs := rt.peerAddrBlobs.insert peerId peerAddrBlob }
  match rt.peerEps.get? peerId with
  | none => (none, rt)
  | some slot =>
      if slot.peerAddrBlob ≠ peerAddrBlob ∧ slot.inFlight = 0 then
        (some slot.ep, { rt with peerEps := rt.peerEps.erase peerId })
      else if slot.peerAddrBlob ≠ peerAddrBlob then
        (none, { rt with peerEps := rt.peerEps.insert peerId { slot with broken := true } })
      else (none, rt)

/-- `create_peer_ep`, for what `ucp_ep_create` answers. -/
def createPeerEp (rt : RuntimeState) (peerAddrBlob : Bytes) (outcome : Except BcError Unit) :
    Except BcError EndpointSlot :=
  outcome.map fun _ => ⟨rt.created, false, peerAddrBlob, 0⟩

def checkoutEndpoint (rt : RuntimeState) (peerId : String) (peerAddrBlob : Bytes)
    (outcome : Except BcError Unit) : Except BcError CheckedOutEndpoint × RuntimeState :=
  match rt.peerEps.get? peerId with
  | some slot =>
      if slot.broken then
        (.error (.peer s!"UCX endpoint is broken for peer {peerId}"), rt)
      else if slot.peerAddrBlob ≠ peerAddrBlob then
        (.error (.peer s!"UCX endpoint address update still in flight for peer {peerId}"), rt)
      else
        (.ok ⟨peerId, slot.ep⟩,
          { rt with
            peerEps := rt.peerEps.insert peerId { slot with inFlight := slot.inFlight + 1 } })
  | none =>
      match rt.createPeerEp peerAddrBlob outcome with
      | .error e => (.error e, rt)
      | .ok slot =>
          (.ok ⟨peerId, slot.ep⟩,
            { rt with
              peerEps := rt.peerEps.insert peerId { slot with inFlight := slot.inFlight + 1 }
              created := rt.created + 1 })

def releaseEndpoint (rt : RuntimeState) (checkedOut : CheckedOutEndpoint) :
    Option Nat × RuntimeState :=
  match rt.peerEps.get? checkedOut.peerId with
  | none => (none, rt)
  | some slot =>
      let inFlight := slot.inFlight - 1
      if inFlight = 0 ∧ slot.broken then
        (some slot.ep, { rt with peerEps := rt.peerEps.erase checkedOut.peerId })
      else
        (none, { rt with
          peerEps := rt.peerEps.insert checkedOut.peerId { slot with inFlight := inFlight } })

def markPeerEpBroken (rt : RuntimeState) (peerId : String) : RuntimeState :=
  match rt.peerEps.get? peerId with
  | none => rt
  | some slot => { rt with peerEps := rt.peerEps.insert peerId { slot with broken := true } }

/-- The peers with a broken endpoint that nobody uses. -/
def brokenIds (rt : RuntimeState) : List String :=
  rt.peerEps.keys.filter fun peerId =>
    match rt.peerEps.get? peerId with
    | none => false
    | some slot => slot.inFlight = 0 && slot.broken

/-- The loop of `take_broken_peer_eps`. -/
def removeEps (rt : RuntimeState) : List String → List Nat × RuntimeState
  | [] => ([], rt)
  | peerId :: ids =>
      match rt.peerEps.get? peerId with
      | none => rt.removeEps ids
      | some slot =>
          let (removed, rt') := { rt with peerEps := rt.peerEps.erase peerId }.removeEps ids
          (slot.ep :: removed, rt')

def takeBrokenPeerEps (rt : RuntimeState) : List Nat × RuntimeState := rt.removeEps rt.brokenIds

/-- `endpoint_error_cb` of an endpoint. -/
def endpointErrorCb (rt : RuntimeState) (ep : Nat) : RuntimeState :=
  { rt with
    peerEps := rt.peerEps.mapVals fun slot =>
      if slot.ep = ep then { slot with broken := true } else slot }

/-! ## What the operations keep -/

/-- The checkouts that the slot of a peer counts. -/
def inFlight (rt : RuntimeState) (peerId : String) : Nat :=
  ((rt.peerEps.get? peerId).map EndpointSlot.inFlight).getD 0

/-- The endpoint in the slot of a peer and the address it was created for. -/
def endpoint (rt : RuntimeState) (peerId : String) : Option (Nat × Bytes) :=
  (rt.peerEps.get? peerId).map fun slot => (slot.ep, slot.peerAddrBlob)

/-- The number of slots that an endpoint is in. -/
def slots (rt : RuntimeState) (ep : Nat) : Nat :=
  FinMap.total (fun slot => if slot.ep = ep then 1 else 0) rt.peerEps

section Fields

variable (rt : RuntimeState) (peerId peer : String) (slot : EndpointSlot)

theorem inFlight_insert : ({ rt with peerEps := rt.peerEps.insert peerId slot }).inFlight peer =
    if peer = peerId then slot.inFlight else rt.inFlight peer := by
  simp only [inFlight, FinMap.get?_insert]
  split <;> rfl

theorem endpoint_insert : ({ rt with peerEps := rt.peerEps.insert peerId slot }).endpoint peer =
    if peer = peerId then some (slot.ep, slot.peerAddrBlob) else rt.endpoint peer := by
  simp only [endpoint, FinMap.get?_insert]
  split <;> rfl

theorem inFlight_erase : ({ rt with peerEps := rt.peerEps.erase peerId }).inFlight peer =
    if peer = peerId then 0 else rt.inFlight peer := by
  simp only [inFlight, FinMap.get?_erase]
  split <;> rfl

theorem endpoint_erase : ({ rt with peerEps := rt.peerEps.erase peerId }).endpoint peer =
    if peer = peerId then none else rt.endpoint peer := by
  simp only [endpoint, FinMap.get?_erase]
  split <;> rfl

variable {rt peerId slot} (hslot : rt.peerEps.get? peerId = some slot)
include hslot

theorem inFlight_of_slot : rt.inFlight peerId = slot.inFlight := by simp [inFlight, hslot]

theorem endpoint_of_slot : rt.endpoint peerId = some (slot.ep, slot.peerAddrBlob) := by
  simp [endpoint, hslot]

theorem slots_replace {slot' : EndpointSlot} (hep : slot'.ep = slot.ep) (ep : Nat) :
    ({ rt with peerEps := rt.peerEps.insert peerId slot' }).slots ep = rt.slots ep := by
  have htotal := FinMap.total_replace (fun s : EndpointSlot => if s.ep = ep then 1 else 0)
    slot' hslot
  rw [hep] at htotal
  exact Nat.add_right_cancel htotal

theorem slots_erase (ep : Nat) :
    ({ rt with peerEps := rt.peerEps.erase peerId }).slots ep + [slot.ep].count ep =
      rt.slots ep := by
  have htotal := FinMap.total_erase (fun s : EndpointSlot => if s.ep = ep then 1 else 0) hslot
  simp only [slots, List.count_singleton, beq_iff_eq]
  exact htotal

end Fields

/-- What an operation does that neither checks out nor releases: the endpoints in
`removed` leave their slots, which nobody uses, and the rest stays. -/
structure Keeps (rt rt' : RuntimeState) (removed : List Nat) : Prop where
  inFlight : ∀ peer, rt'.inFlight peer = rt.inFlight peer
  endpoint : ∀ peer, rt.inFlight peer ≠ 0 → rt'.endpoint peer = rt.endpoint peer
  slots : ∀ ep, rt'.slots ep + removed.count ep = rt.slots ep
  created : rt'.created = rt.created

namespace Keeps

variable {rt rt' rt'' : RuntimeState} {removed removed' : List Nat} {peerId : String}
  {slot : EndpointSlot}

theorem refl (rt : RuntimeState) : Keeps rt rt [] :=
  ⟨fun _ => rfl, fun _ _ => rfl, fun _ => rfl, rfl⟩

theorem trans (h : Keeps rt rt' removed) (h' : Keeps rt' rt'' removed') :
    Keeps rt rt'' (removed ++ removed') := by
  constructor
  · intro peer
    rw [h'.inFlight, h.inFlight]
  · intro peer hpos
    rw [h'.endpoint peer (by rwa [h.inFlight]), h.endpoint peer hpos]
  · intro ep
    have h₁ := h.slots ep
    have h₂ := h'.slots ep
    rw [List.count_append]
    omega
  · rw [h'.created, h.created]

/-- A slot that nobody uses goes. -/
theorem erase (hslot : rt.peerEps.get? peerId = some slot) (hidle : slot.inFlight = 0) :
    Keeps rt { rt with peerEps := rt.peerEps.erase peerId } [slot.ep] := by
  have hzero : rt.inFlight peerId = 0 := (inFlight_of_slot hslot).trans hidle
  constructor
  · intro peer
    rw [inFlight_erase]
    split
    · rename_i hpeer
      rw [hpeer, hzero]
    · rfl
  · intro peer hpos
    rw [endpoint_erase]
    split
    · rename_i hpeer
      exact absurd (hpeer ▸ hzero) hpos
    · rfl
  · exact slots_erase hslot
  · rfl

/-- A slot is marked as broken. -/
theorem mark (hslot : rt.peerEps.get? peerId = some slot) :
    Keeps rt { rt with peerEps := rt.peerEps.insert peerId { slot with broken := true } } [] := by
  constructor
  · intro peer
    rw [inFlight_insert]
    split
    · rename_i hpeer
      rw [hpeer, inFlight_of_slot hslot]
    · rfl
  · intro peer _
    rw [endpoint_insert]
    split
    · rename_i hpeer
      rw [hpeer, endpoint_of_slot hslot]
    · rfl
  · intro ep
    exact slots_replace hslot rfl ep
  · rfl

end Keeps

variable {rt rt' : RuntimeState} {peerId : String} {peerAddrBlob : Bytes}

theorem keeps_updatePeerAddrBlob (rt : RuntimeState) (peerId : String) (peerAddrBlob : Bytes) :
    Keeps rt (rt.updatePeerAddrBlob peerId peerAddrBlob).2
      (rt.updatePeerAddrBlob peerId peerAddrBlob).1.toList := by
  have haddr : Keeps rt { rt with
      peerAddrBlobs := rt.peerAddrBlobs.insert peerId peerAddrBlob } [] :=
    ⟨fun _ => rfl, fun _ _ => rfl, fun _ => rfl, rfl⟩
  unfold updatePeerAddrBlob
  dsimp only
  split
  · exact haddr
  · rename_i slot hslot
    split
    · rename_i hidle
      exact haddr.trans (Keeps.erase hslot hidle.2)
    · split
      · exact haddr.trans (Keeps.mark hslot)
      · exact haddr

theorem keeps_markPeerEpBroken (rt : RuntimeState) (peerId : String) :
    Keeps rt (rt.markPeerEpBroken peerId) [] := by
  unfold markPeerEpBroken
  split
  · exact .refl rt
  · rename_i slot hslot
    exact Keeps.mark hslot

theorem keeps_endpointErrorCb (rt : RuntimeState) (ep : Nat) :
    Keeps rt (rt.endpointErrorCb ep) [] := by
  have hget (peer : String) : (rt.endpointErrorCb ep).peerEps.get? peer =
      (rt.peerEps.get? peer).map fun slot =>
        if slot.ep = ep then { slot with broken := true } else slot :=
    FinMap.get?_mapVals _ _ peer
  constructor
  · intro peer
    simp only [inFlight, hget]
    cases rt.peerEps.get? peer with
    | none => rfl
    | some slot => by_cases hep : slot.ep = ep <;> simp [hep]
  · intro peer _
    simp only [endpoint, hget]
    cases rt.peerEps.get? peer with
    | none => rfl
    | some slot => by_cases hep : slot.ep = ep <;> simp [hep]
  · intro ep'
    have hsame (slot : EndpointSlot) :
        (if slot.ep = ep then { slot with broken := true } else slot).ep = slot.ep := by
      split <;> rfl
    simp only [slots, endpointErrorCb, FinMap.total_mapVals, hsame, List.count_nil, Nat.add_zero]
  · rfl

theorem keeps_removeEps (rt : RuntimeState) (ids : List String)
    (hidle : ∀ peerId ∈ ids, ∀ slot, rt.peerEps.get? peerId = some slot → slot.inFlight = 0) :
    Keeps rt (rt.removeEps ids).2 (rt.removeEps ids).1 := by
  induction ids generalizing rt with
  | nil => exact .refl rt
  | cons peerId ids ih =>
      unfold removeEps
      split
      · apply ih
        intro peer hpeer
        exact hidle peer (List.mem_cons_of_mem _ hpeer)
      · rename_i slot hslot
        have herase := Keeps.erase hslot (hidle peerId List.mem_cons_self slot hslot)
        apply herase.trans
        apply ih
        intro peer hpeer slot' hslot'
        simp only [FinMap.get?_erase] at hslot'
        split at hslot'
        · cases hslot'
        · exact hidle peer (List.mem_cons_of_mem _ hpeer) slot' hslot'

theorem keeps_takeBrokenPeerEps (rt : RuntimeState) :
    Keeps rt rt.takeBrokenPeerEps.2 rt.takeBrokenPeerEps.1 := by
  apply keeps_removeEps
  intro peerId hpeer slot hslot
  obtain ⟨-, hbroken⟩ := List.mem_filter.mp hpeer
  rw [hslot] at hbroken
  simp only [Bool.and_eq_true, decide_eq_true_eq] at hbroken
  exact hbroken.1

/-- A checkout counts one more for its peer, of the endpoint in the peer's slot, which
was created for the address that was asked for. -/
structure ChecksOut (rt rt' : RuntimeState) (peerId : String) (peerAddrBlob : Bytes)
    (checkedOut : CheckedOutEndpoint) : Prop where
  peer : checkedOut.peerId = peerId
  inFlight : ∀ peer, rt'.inFlight peer = rt.inFlight peer + if peer = peerId then 1 else 0
  endpoint : ∀ peer, rt.inFlight peer ≠ 0 → rt'.endpoint peer = rt.endpoint peer
  checkedOut : rt'.endpoint peerId = some (checkedOut.ep, peerAddrBlob)
  slots : ∀ ep, rt'.slots ep =
    rt.slots ep + if rt.created ≤ ep ∧ ep < rt'.created then 1 else 0
  created : rt.created ≤ rt'.created

/-- The slot of the peer is used once more. -/
theorem checksOut_of_slot {slot : EndpointSlot} (hslot : rt.peerEps.get? peerId = some slot)
    (haddr : slot.peerAddrBlob = peerAddrBlob) :
    ChecksOut rt
      { rt with peerEps := rt.peerEps.insert peerId { slot with inFlight := slot.inFlight + 1 } }
      peerId peerAddrBlob ⟨peerId, slot.ep⟩ := by
  constructor
  · rfl
  · intro peer
    rw [inFlight_insert]
    split
    · rename_i hpeer
      rw [hpeer, inFlight_of_slot hslot]
    · exact (Nat.add_zero _).symm
  · intro peer _
    rw [endpoint_insert]
    split
    · rename_i hpeer
      rw [hpeer, endpoint_of_slot hslot]
    · rfl
  · rw [endpoint_insert, if_pos rfl, haddr]
  · intro ep
    have hnone : ¬ (rt.created ≤ ep ∧ ep < rt.created) := by omega
    rw [if_neg hnone, Nat.add_zero]
    exact slots_replace hslot rfl ep
  · exact Nat.le_refl _

/-- The peer gets a slot with a new endpoint. -/
theorem checksOut_of_none (peerAddrBlob : Bytes) (hslot : rt.peerEps.get? peerId = none) :
    ChecksOut rt
      { rt with
        peerEps := rt.peerEps.insert peerId ⟨rt.created, false, peerAddrBlob, 1⟩
        created := rt.created + 1 }
      peerId peerAddrBlob ⟨peerId, rt.created⟩ := by
  have hidle : rt.inFlight peerId = 0 := by simp [inFlight, hslot]
  constructor
  · rfl
  · intro peer
    refine (inFlight_insert rt peerId peer _).trans ?_
    split
    · rename_i hpeer
      rw [hpeer, hidle]
    · exact (Nat.add_zero _).symm
  · intro peer hpos
    refine (endpoint_insert rt peerId peer _).trans ?_
    split
    · rename_i hpeer
      exact absurd (hpeer ▸ hidle) hpos
    · rfl
  · exact (endpoint_insert rt peerId peerId _).trans (if_pos rfl)
  · intro ep
    refine (FinMap.total_insert_of_none _ _ hslot).trans ?_
    have hnew : (rt.created ≤ ep ∧ ep < rt.created + 1) ↔ rt.created = ep := by omega
    simp only [slots, hnew]
    omega
  · exact Nat.le_succ _

theorem checkoutEndpoint_ok {outcome : Except BcError Unit} {checkedOut : CheckedOutEndpoint}
    (h : rt.checkoutEndpoint peerId peerAddrBlob outcome = (.ok checkedOut, rt')) :
    ChecksOut rt rt' peerId peerAddrBlob checkedOut := by
  unfold checkoutEndpoint at h
  split at h
  · rename_i slot hslot
    split at h
    · cases h
    · split at h
      · cases h
      · rename_i haddr
        cases h
        exact checksOut_of_slot hslot (not_not.mp haddr)
  · rename_i hslot
    split at h
    · cases h
    · rename_i slot hcreate
      cases outcome with
      | error e => cases hcreate
      | ok _ =>
          cases hcreate
          cases h
          exact checksOut_of_none peerAddrBlob hslot

theorem checkoutEndpoint_error {outcome : Except BcError Unit} {e : BcError}
    (h : rt.checkoutEndpoint peerId peerAddrBlob outcome = (.error e, rt')) : rt' = rt := by
  unfold checkoutEndpoint at h
  split at h
  · split at h
    · cases h
      rfl
    · split at h
      · cases h
        rfl
      · cases h
  · split at h
    · cases h
      rfl
    · cases h

/-- A release counts one less for its peer; the slot may go with the last one. -/
structure Releases (rt rt' : RuntimeState) (peerId : String) (removed : List Nat) : Prop where
  inFlight : ∀ peer, rt'.inFlight peer + (if peer = peerId then 1 else 0) = rt.inFlight peer
  endpoint : ∀ peer, rt'.inFlight peer ≠ 0 → rt'.endpoint peer = rt.endpoint peer
  slots : ∀ ep, rt'.slots ep + removed.count ep = rt.slots ep
  created : rt'.created = rt.created

theorem releases_of_inFlight {checkedOut : CheckedOutEndpoint}
    (hpos : rt.inFlight checkedOut.peerId ≠ 0) :
    Releases rt (rt.releaseEndpoint checkedOut).2 checkedOut.peerId
      (rt.releaseEndpoint checkedOut).1.toList := by
  cases hslot : rt.peerEps.get? checkedOut.peerId with
  | none => exact absurd (by simp [inFlight, hslot]) hpos
  | some slot =>
      have hcount := inFlight_of_slot hslot
      simp only [releaseEndpoint, hslot]
      split
      · rename_i hlast
        constructor
        · intro peer
          rw [inFlight_erase]
          split
          · rename_i hpeer
            rw [hpeer]
            omega
          · rfl
        · intro peer hleft
          rw [inFlight_erase] at hleft
          rw [endpoint_erase]
          split at hleft
          · exact absurd rfl hleft
          · rename_i hpeer
            rw [if_neg hpeer]
        · exact slots_erase hslot
        · rfl
      · constructor
        · intro peer
          rw [inFlight_insert]
          split
          · rename_i hpeer
            rw [hpeer]
            dsimp only
            omega
          · rfl
        · intro peer _
          rw [endpoint_insert]
          split
          · rename_i hpeer
            rw [hpeer, endpoint_of_slot hslot]
          · rfl
        · exact slots_replace hslot rfl
        · rfl

end RuntimeState

end BlobCache.Ucx
