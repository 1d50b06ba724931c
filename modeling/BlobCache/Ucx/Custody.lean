import BlobCache.Conc.Protocol
import BlobCache.Ucx.Runtime

/-!
Who has what in the UCX runtime, in every interleaving of its tasks. A task has at most
one endpoint checked out, closes the endpoints that it was handed before it does
anything else, and takes and returns its part of the slab in order. From that the
ledgers of the endpoints and of the slab stay balanced.

An endpoint that was replaced is lost in one case: its task learns that the new endpoint
could not be created and returns before it closes the old one.
-/

namespace BlobCache.Ucx

open Conc Holders

/-! ## What a task has -/

structure Task where
  checkout : Option (String × Nat × Bytes)
  hand : List Nat
  hold : Option Hold

namespace Task

def idle : Task := ⟨none, [], none⟩

/-- What the task has after an operation. -/
def next (l : Task) : (o : Op) → o.Resp → Task
  | .enter peerId peerAddrBlob, (removed, .ok checkedOut) =>
      { l with
        checkout := some (peerId, checkedOut.ep, peerAddrBlob), hand := removed.toList }
  | .update _ _, removed => { l with hand := Option.toList removed }
  | .release _, removed => { l with checkout := none, hand := Option.toList removed }
  | .takeBroken, removed => { l with hand := removed }
  | .close ep, _ => { l with hand := l.hand.erase ep }
  | .acquire, _ => { l with hold := some .permit }
  | .popFree, some idx => { l with hold := some (.slot idx) }
  | .pushFree _, _ => { l with hold := some .returned }
  | .releasePermit, _ => { l with hold := none }
  | .enter _ _, (_, .error _) | .popFree, none | .addrOf _, _ | .markBroken _, _ | .errorCb _, _
  | .tagSend _ _, _ | .postRecv _ _, _ | .exchange _ _, _ => l

end Task

def Ledger.task (l : Ledger) (t : Nat) : Task := ⟨l.outstanding.get? t, l.hand t, l.holds.get? t⟩

/-! ## What an operation does -/

open RuntimeState in
/-- Every way in which an operation can go. -/
inductive Did (t : Nat) (s : State) : (o : Op) → o.Resp → State → Prop where
  | looked (peerId : String) (r : Option Bytes) : Did t s (.addrOf peerId) r s
  | sent (ep : Nat) (response : Bytes) (r : Except BcError Unit) :
      Did t s (.tagSend ep response) r s
  | exchanged (ep : Nat) (req : Bytes) (r : Except BcError Bytes) : Did t s (.exchange ep req) r s
  | marked (peerId : String) {rt : RuntimeState} : Keeps s.rt rt [] →
      Did t s (.markBroken peerId) () { s with rt := rt }
  | broke (ep : Nat) {rt : RuntimeState} : Keeps s.rt rt [] →
      Did t s (.errorCb ep) () { s with rt := rt }
  | updated (peerId : String) (peerAddrBlob : Bytes) {removed : Option Nat} {rt : RuntimeState} :
      Keeps s.rt rt removed.toList →
      Did t s (.update peerId peerAddrBlob) removed
        { s with rt := rt, ledger := s.ledger.handOut t removed.toList }
  | reaped {removed : List Nat} {rt : RuntimeState} : Keeps s.rt rt removed →
      Did t s .takeBroken removed { s with rt := rt, ledger := s.ledger.handOut t removed }
  | refused (peerId : String) (peerAddrBlob : Bytes) {removed : Option Nat} {e : BcError}
      {rt : RuntimeState} : Keeps s.rt rt removed.toList →
      Did t s (.enter peerId peerAddrBlob) (removed, .error e)
        { s with rt := rt, ledger := s.ledger.letGo removed.toList }
  | entered (peerId : String) (peerAddrBlob : Bytes) {removed : Option Nat}
      {checkedOut : CheckedOutEndpoint} {rt rt' : RuntimeState} : Keeps s.rt rt removed.toList →
      ChecksOut rt rt' peerId peerAddrBlob checkedOut →
      Did t s (.enter peerId peerAddrBlob) (removed, .ok checkedOut)
        { s with
          rt := rt'
          ledger :=
            { s.ledger.handOut t removed.toList with
              outstanding :=
                s.ledger.outstanding.insert t (peerId, checkedOut.ep, peerAddrBlob) } }
  | released (checkedOut : CheckedOutEndpoint) :
      Did t s (.release checkedOut) (s.rt.releaseEndpoint checkedOut).1
        { s with
          rt := (s.rt.releaseEndpoint checkedOut).2
          ledger :=
            { s.ledger.handOut t (s.rt.releaseEndpoint checkedOut).1.toList with
              outstanding := s.ledger.outstanding.erase t } }
  | closed (ep : Nat) : Did t s (.close ep) () { s with ledger := s.ledger.close t ep }
  | acquired {slab : RecvSlab} : s.slab.acquire = some slab →
      Did t s .acquire () { s with
        slab := slab
        ledger := { s.ledger with holds := s.ledger.holds.insert t .permit } }
  | desynced : s.slab.free = [] → Did t s .popFree none s
  | popped {idx : Nat} {slab : RecvSlab} : s.slab.pop = (some idx, slab) →
      Did t s .popFree (some idx) { s with
        slab := slab
        ledger := { s.ledger with holds := s.ledger.holds.insert t (.slot idx) } }
  | posted (idx len : Nat) :
      Did t s (.postRecv idx len) () { s with
        ledger := { s.ledger with posted := s.ledger.posted.insert t (idx, len) } }
  | pushed (idx : Nat) :
      Did t s (.pushFree idx) () { s with
        slab := s.slab.push idx
        ledger := { s.ledger with
          holds := s.ledger.holds.insert t .returned, posted := s.ledger.posted.erase t } }
  | left :
      Did t s .releasePermit () { s with
        slab := s.slab.releasePermit
        ledger := { s.ledger with holds := s.ledger.holds.erase t } }

section Exec

variable {t : Nat} {o : Op} {c : Choice} {s s' : State} {r : o.Resp}

theorem did_enter {peerId : String} {peerAddrBlob : Bytes}
    {r : Option Nat × Except BcError CheckedOutEndpoint}
    (h : s.enter t peerId peerAddrBlob c = (r, s')) :
    Did t s (.enter peerId peerAddrBlob) r s' := by
  have hkeeps := s.rt.keeps_updatePeerAddrBlob peerId peerAddrBlob
  unfold State.enter at h
  dsimp only at h
  split at h
  · rename_i e rt hcheckout
    cases h
    have hsame := RuntimeState.checkoutEndpoint_error hcheckout
    subst hsame
    exact .refused peerId peerAddrBlob hkeeps
  · rename_i checkedOut rt hcheckout
    cases h
    exact .entered peerId peerAddrBlob hkeeps (RuntimeState.checkoutEndpoint_ok hcheckout)

theorem did_of_exec (h : exec t o c s = some (r, s')) : Did t s o r s' := by
  cases o with
  | addrOf peerId =>
      cases h
      exact .looked peerId _
  | enter peerId peerAddrBlob => exact did_enter (Option.some.inj h)
  | update peerId peerAddrBlob =>
      cases h
      exact .updated peerId peerAddrBlob (s.rt.keeps_updatePeerAddrBlob peerId peerAddrBlob)
  | markBroken peerId =>
      cases h
      exact .marked peerId (s.rt.keeps_markPeerEpBroken peerId)
  | release checkedOut =>
      cases h
      exact .released checkedOut
  | takeBroken =>
      cases h
      exact .reaped s.rt.keeps_takeBrokenPeerEps
  | close ep =>
      cases h
      exact .closed ep
  | errorCb ep =>
      cases h
      exact .broke ep (s.rt.keeps_endpointErrorCb ep)
  | tagSend ep response =>
      cases h
      exact .sent ep response _
  | acquire =>
      simp only [exec] at h
      split at h
      · cases h
      · rename_i slab hacquire
        cases h
        exact .acquired hacquire
  | popFree =>
      simp only [exec] at h
      split at h
      · rename_i slab hpop
        cases h
        unfold RecvSlab.pop at hpop
        split at hpop
        · rename_i hfree
          cases hpop
          exact .desynced hfree
        · cases hpop
      · rename_i idx slab hpop
        cases h
        exact .popped hpop
  | postRecv idx len =>
      cases h
      exact .posted idx len
  | exchange ep req =>
      cases h
      exact .exchanged ep req _
  | pushFree idx =>
      cases h
      exact .pushed idx
  | releasePermit =>
      cases h
      exact .left

/-- An operation changes what its own task has, and nothing of the others. -/
theorem Did.task (h : Did t s o r s') (u : Nat) :
    s'.ledger.task u = if u = t then (s.ledger.task t).next o r else s.ledger.task u := by
  by_cases hu : u = t
  · subst hu
    rw [if_pos rfl]
    cases h <;>
      simp [Ledger.task, Task.next, Ledger.handOut, Ledger.letGo, Ledger.close, Ledger.hand]
  · rw [if_neg hu]
    cases h <;>
      simp [Ledger.task, Ledger.handOut, Ledger.letGo, Ledger.close, Ledger.hand,
        FinMap.get?_insert, FinMap.get?_erase, hu]

end Exec

/-! ## The order in which a task goes about it -/

/-- What a task has before an operation. It closes what it is handed first. -/
def Task.ready (maxLen : Nat) (l : Task) : Op → Prop
  | .close ep => ∃ eps, l.hand = ep :: eps
  | .enter _ _ => l.hand = [] ∧ l.checkout = none
  | .release checkedOut =>
      l.hand = [] ∧ ∃ addr, l.checkout = some (checkedOut.peerId, checkedOut.ep, addr)
  | .acquire => l.hand = [] ∧ l.hold = none
  | .popFree => l.hand = [] ∧ l.hold = some .permit
  | .postRecv idx len => l.hand = [] ∧ l.hold = some (.slot idx) ∧ len ≤ 8 + maxLen
  | .pushFree idx => l.hand = [] ∧ l.hold = some (.slot idx)
  | .releasePermit => l.hand = [] ∧ l.hold = some .returned
  | .addrOf _ | .update _ _ | .markBroken _ | .takeBroken | .errorCb _ | .tagSend _ _
  | .exchange _ _ => l.hand = []

/-- What a task can rely on: there is an index for it, and the endpoint is its peer's. -/
def told : (o : Op) → o.Resp → Prop
  | .popFree, r => r ≠ none
  | .enter peerId _, (_, .ok checkedOut) => checkedOut.peerId = peerId
  | _, _ => True

/-- The lengths that `client_fetch` lets through. -/
def accepted (length : UInt32) : Prop := length.toNat ≠ 0 ∧ length.toNat ≤ maxResponseBytes

/-- A fetch that is let through asks for at most `maxLen` bytes. -/
def Job.bounded (maxLen : Nat) : Job → Prop
  | .clientFetch _ _ _ length _ _ => accepted length → length.toNat ≤ maxLen
  | _ => True

def protocol (me : String) (maxLen : Nat) : Protocol (machine me) where
  Local := Task
  init _ := .idle
  jobOk := Job.bounded maxLen
  pre := Task.ready maxLen
  allows _ := told
  next := Task.next
  spawnPre _ _ := False
  spawned l _ := l
  joined l _ _ := l
  post _ _ l := l = .idle
  dead _ := .idle

section Bodies

variable {me : String} {maxLen : Nat} {α : Type}

/-- One operation of a task. -/
theorem sat_perform_bind {o : Op} {f : o.Resp → RtM α} {l : Task} {Q : α → Task → Prop}
    (hready : l.ready maxLen o)
    (hf : ∀ r, told o r → (f r).Sat (protocol me maxLen) (l.next o r) Q) :
    (perform o >>= f).Sat (protocol me maxLen) l Q :=
  ⟨hready, hf⟩

/-- A task that closes what it was handed goes on with nothing in its hand. -/
theorem sat_close_bind {eps : List Nat} {f : Unit → RtM α} {l : Task} {Q : α → Task → Prop}
    (hhand : l.hand = eps) (hf : (f ()).Sat (protocol me maxLen) { l with hand := [] } Q) :
    (closeRemovedEndpoints eps >>= f).Sat (protocol me maxLen) l Q := by
  induction eps generalizing l with
  | nil =>
      cases l
      cases hhand
      exact hf
  | cons ep eps ih =>
      apply sat_perform_bind
      · exact ⟨eps, hhand⟩
      · intro _ _
        apply ih
        · simp [Task.next, hhand]
        · exact hf

/-- The end of a task that has an endpoint checked out. -/
theorem release_sat {checkedOut : CheckedOutEndpoint} {addr : Bytes} {a : α} :
    (do
      let removed : Option Nat ← perform (.release checkedOut)
      closeRemovedEndpoints removed.toList
      return a : RtM α).Sat (protocol me maxLen)
        ⟨some (checkedOut.peerId, checkedOut.ep, addr), [], none⟩ fun _ l' => l' = .idle := by
  apply sat_perform_bind
  · exact ⟨rfl, addr, rfl⟩
  · intro removed _
    apply sat_close_bind
    · rfl
    · exact (rfl : _ = Task.idle)

/-- The beginning of a task that checks an endpoint out. -/
theorem enter_sat {peerId : String} {peerAddrBlob : Bytes} {refused : BcError → RtM α}
    {go : CheckedOutEndpoint → RtM α} {Q : α → Task → Prop}
    (hrefused : ∀ e, (refused e).Sat (protocol me maxLen) .idle Q)
    (hgo : ∀ checkedOut : CheckedOutEndpoint, checkedOut.peerId = peerId →
      (go checkedOut).Sat (protocol me maxLen)
        ⟨some (checkedOut.peerId, checkedOut.ep, peerAddrBlob), [], none⟩ Q) :
    (do
      match ← perform (.enter peerId peerAddrBlob) with
      | (_, .error e) => refused e
      | (removed, .ok checkedOut) =>
          closeRemovedEndpoints removed.toList
          go checkedOut : RtM α).Sat (protocol me maxLen) .idle Q := by
  apply sat_perform_bind
  · exact ⟨rfl, rfl⟩
  · rintro ⟨removed, e | checkedOut⟩ htold
    · exact hrefused e
    · have hpeer : checkedOut.peerId = peerId := htold
      have hsat := hgo checkedOut hpeer
      rw [hpeer] at hsat
      apply sat_close_bind
      · rfl
      · exact hsat

theorem dropSlot_sat (me : String) (maxLen : Nat) {idx : Nat} {l : Task} (hhand : l.hand = [])
    (hhold : l.hold = some (.slot idx)) :
    (dropSlot idx).Sat (protocol me maxLen) l fun _ l' => l' = { l with hold := none } := by
  apply sat_perform_bind
  · exact ⟨hhand, hhold⟩
  · intro _ _
    exact ⟨⟨hhand, rfl⟩, fun _ _ => rfl⟩

theorem receiveInto_sat (me : String) (ep : Nat) (key : ChunkKey) {length : UInt32}
    (waitMs : UInt32) (rid : String) {idx : Nat} {l : Task} (hhand : l.hand = [])
    (hhold : l.hold = some (.slot idx)) (hlen : length.toNat ≤ maxLen) :
    (receiveInto me ep key length waitMs rid idx).Sat (protocol me maxLen) l
      fun _ l' => l' = l := by
  unfold receiveInto
  split
  · rfl
  · apply sat_perform_bind
    · exact ⟨hhand, hhold, by omega⟩
    · intro _ _
      apply sat_perform_bind
      · exact hhand
      · intro reply _
        split <;> rfl

theorem clientFetchInner_sat (me : String) (ep : Nat) (key : ChunkKey) {length : UInt32}
    (waitMs : UInt32) (rid : String) {l : Task} (hhand : l.hand = []) (hhold : l.hold = none)
    (hlen : length.toNat ≤ maxLen) :
    (clientFetchInner me ep key length waitMs rid).Sat (protocol me maxLen) l
      fun _ l' => l' = l := by
  apply sat_perform_bind
  · exact ⟨hhand, hhold⟩
  · intro _ _
    apply sat_perform_bind
    · exact ⟨hhand, rfl⟩
    · intro popped htold
      cases popped with
      | none => exact absurd rfl htold
      | some idx =>
          have hreceive := receiveInto_sat me ep key waitMs rid
            (l := { l with hold := some (.slot idx) }) hhand rfl hlen
          apply hreceive.bind
          rintro result _ rfl
          have hdrop := dropSlot_sat me maxLen (l := { l with hold := some (.slot idx) }) hhand rfl
          apply hdrop.bind
          rintro _ _ rfl
          cases l
          cases hhold
          rfl

/-- Marking an endpoint as broken changes nothing for the task. -/
theorem mark_sat {b : Bool} {peerId : String} {f : Unit → RtM α} {l : Task}
    {Q : α → Task → Prop} (hhand : l.hand = []) (hf : (f ()).Sat (protocol me maxLen) l Q) :
    (if b then perform (.markBroken peerId) >>= f else f ()).Sat (protocol me maxLen) l Q := by
  cases b with
  | true =>
      apply sat_perform_bind
      · exact hhand
      · intro _ _
        exact hf
  | false => exact hf

theorem clientFetch_sat (peerId : String) (peerAddrBlob : Bytes) (key : ChunkKey) {length : UInt32}
    (waitMs : UInt32) (rid : String) (hlen : accepted length → length.toNat ≤ maxLen) :
    (clientFetch me peerId peerAddrBlob key length waitMs rid).Sat (protocol me maxLen) .idle
      fun _ l' => l' = .idle := by
  unfold clientFetch
  split
  · rfl
  · rename_i haccept
    apply enter_sat
    · intro e
      rfl
    · intro checkedOut hpeer
      apply Program.Sat.bind
      · exact clientFetchInner_sat me checkedOut.ep key waitMs rid rfl rfl
          (hlen ⟨by omega, by omega⟩)
      · rintro result _ rfl
        apply mark_sat
        · rfl
        · exact release_sat

theorem clientHealth_sat (peerId : String) (peerAddrBlob : Bytes) :
    (clientHealth peerId peerAddrBlob).Sat (protocol me maxLen) .idle fun _ l' => l' = .idle := by
  apply enter_sat
  · intro e
    rfl
  · intro checkedOut _
    exact release_sat

theorem serverSendResponse_sat (peerId : String) (response : Bytes) :
    (serverSendResponse peerId response).Sat (protocol me maxLen) .idle
      fun _ l' => l' = .idle := by
  apply sat_perform_bind
  · rfl
  · intro addr _
    cases addr with
    | none => rfl
    | some peerAddrBlob =>
        apply enter_sat
        · intro e
          rfl
        · intro checkedOut _
          apply sat_perform_bind
          · rfl
          · intro result _
            apply mark_sat
            · rfl
            · exact release_sat

theorem updatePeer_sat (peerId : String) (peerAddrBlob : Bytes) :
    (updatePeer peerId peerAddrBlob).Sat (protocol me maxLen) .idle fun _ l' => l' = .idle := by
  apply sat_perform_bind
  · rfl
  · intro removed _
    apply sat_close_bind
    · rfl
    · exact (rfl : _ = Task.idle)

theorem reapBrokenEps_sat :
    reapBrokenEps.Sat (protocol me maxLen) .idle fun _ l' => l' = .idle := by
  apply sat_perform_bind
  · rfl
  · intro stale _
    apply sat_close_bind
    · rfl
    · exact (rfl : _ = Task.idle)

theorem body_sat {j : Job} (hj : j.bounded maxLen) :
    (body me j).Sat (protocol me maxLen) .idle fun _ l' => l' = .idle := by
  cases j with
  | clientFetch peerId peerAddrBlob key length waitMs requestId =>
      apply (clientFetch_sat peerId peerAddrBlob key waitMs requestId hj).bind
      rintro _ _ rfl
      rfl
  | clientHealth peerId peerAddrBlob =>
      apply (clientHealth_sat peerId peerAddrBlob).bind
      rintro _ _ rfl
      rfl
  | serverSendResponse peerId response =>
      apply (serverSendResponse_sat peerId response).bind
      rintro _ _ rfl
      rfl
  | updatePeer peerId peerAddrBlob =>
      apply (updatePeer_sat peerId peerAddrBlob).bind
      rintro _ _ rfl
      rfl
  | reapBrokenEps =>
      apply reapBrokenEps_sat.bind
      rintro _ _ rfl
      rfl
  | endpointErrorCb ep =>
      apply sat_perform_bind
      · rfl
      · intro _ _
        rfl

end Bodies

/-! ## The invariant -/

/-- The ledgers are balanced. An endpoint has been created if and only if it is in a slot
or was taken out of one, once. -/
structure Balanced (maxLen : Nat) (s : State) : Prop where
  counted : Counted s.rt.inFlight s.rt.endpoint s.ledger.outstanding
  accounted : ∀ ep, s.rt.slots ep + s.ledger.removed.count ep = if ep < s.rt.created then 1 else 0
  slab : SlabOk s.slab s.ledger.holds
  posted : ∀ t x, s.ledger.posted.get? t = some x →
    s.ledger.holds.get? t = some (.slot x.1) ∧ x.2 ≤ 8 + maxLen

namespace Balanced

variable {maxLen t : Nat} {o : Op} {s s' : State} {r : o.Resp} {eps : List Nat}

theorem accounted_of_keeps (h : Balanced maxLen s) {rt : RuntimeState}
    (hkeeps : RuntimeState.Keeps s.rt rt eps) (ep : Nat) :
    rt.slots ep + (eps ++ s.ledger.removed).count ep = if ep < rt.created then 1 else 0 := by
  have hslots := hkeeps.slots ep
  have hold := h.accounted ep
  rw [List.count_append, hkeeps.created]
  omega

/-- Nothing of the slab changes. -/
theorem of_rt (h : Balanced maxLen s) {rt : RuntimeState} {l : Ledger}
    (hholds : l.holds = s.ledger.holds) (hposted : l.posted = s.ledger.posted)
    (hcounted : Counted rt.inFlight rt.endpoint l.outstanding)
    (haccounted : ∀ ep, rt.slots ep + l.removed.count ep = if ep < rt.created then 1 else 0) :
    Balanced maxLen { s with rt := rt, ledger := l } := by
  refine ⟨hcounted, haccounted, ?_, ?_⟩
  · rw [hholds]
    exact h.slab
  · rw [hholds, hposted]
    exact h.posted

/-- No endpoint is checked out or released. -/
theorem keeps (h : Balanced maxLen s) {rt : RuntimeState} {l : Ledger}
    (hkeeps : RuntimeState.Keeps s.rt rt eps) (hholds : l.holds = s.ledger.holds)
    (hposted : l.posted = s.ledger.posted) (hout : l.outstanding = s.ledger.outstanding)
    (hremoved : l.removed = eps ++ s.ledger.removed) :
    Balanced maxLen { s with rt := rt, ledger := l } := by
  apply h.of_rt hholds hposted
  · rw [hout]
    exact h.counted.keep hkeeps.inFlight hkeeps.endpoint
  · rw [hremoved]
    exact h.accounted_of_keeps hkeeps

theorem enters (h : Balanced maxLen s) {rt rt' : RuntimeState} {peerId : String}
    {peerAddrBlob : Bytes} {checkedOut : CheckedOutEndpoint} {l : Ledger}
    (hfree : s.ledger.outstanding.get? t = none) (hkeeps : RuntimeState.Keeps s.rt rt eps)
    (hout : RuntimeState.ChecksOut rt rt' peerId peerAddrBlob checkedOut)
    (hholds : l.holds = s.ledger.holds) (hposted : l.posted = s.ledger.posted)
    (houtstanding :
      l.outstanding = s.ledger.outstanding.insert t (peerId, checkedOut.ep, peerAddrBlob))
    (hremoved : l.removed = eps ++ s.ledger.removed) :
    Balanced maxLen { s with rt := rt', ledger := l } := by
  apply h.of_rt hholds hposted
  · rw [houtstanding]
    have hkept := h.counted.keep hkeeps.inFlight hkeeps.endpoint
    exact hkept.checkout hfree hout.inFlight hout.endpoint hout.checkedOut
  · intro ep
    have hkept := h.accounted_of_keeps hkeeps ep
    have hslots := hout.slots ep
    have hcreated := hout.created
    rw [hremoved]
    split at hslots <;> split at hkept <;> split <;> omega

theorem releases (h : Balanced maxLen s) {checkedOut : CheckedOutEndpoint} {addr : Bytes}
    {l : Ledger}
    (hheld : s.ledger.outstanding.get? t = some (checkedOut.peerId, checkedOut.ep, addr))
    (hholds : l.holds = s.ledger.holds) (hposted : l.posted = s.ledger.posted)
    (houtstanding : l.outstanding = s.ledger.outstanding.erase t)
    (hremoved : l.removed = (s.rt.releaseEndpoint checkedOut).1.toList ++ s.ledger.removed) :
    Balanced maxLen { s with rt := (s.rt.releaseEndpoint checkedOut).2, ledger := l } := by
  have hreleases := RuntimeState.releases_of_inFlight (h.counted.pos hheld)
  apply h.of_rt hholds hposted
  · rw [houtstanding]
    exact h.counted.release hheld hreleases.inFlight hreleases.endpoint
  · intro ep
    have hslots := hreleases.slots ep
    have hold := h.accounted ep
    rw [hremoved, List.count_append, hreleases.created]
    omega

/-- Task `t` has no slice posted, and the others keep what they hold. -/
theorem of_slab (h : Balanced maxLen s) {slab : RecvSlab} {l : Ledger}
    (hout : l.outstanding = s.ledger.outstanding) (hremoved : l.removed = s.ledger.removed)
    (hslab : SlabOk slab l.holds) (hholds : ∀ u, u ≠ t → l.holds.get? u = s.ledger.holds.get? u)
    (hposted : ∀ u x, l.posted.get? u = some x → u ≠ t ∧ s.ledger.posted.get? u = some x) :
    Balanced maxLen { s with slab := slab, ledger := l } := by
  refine ⟨?_, ?_, hslab, ?_⟩
  · rw [hout]
    exact h.counted
  · rw [hremoved]
    exact h.accounted
  · intro u x hx
    obtain ⟨hu, hx⟩ := hposted u x hx
    rw [hholds u hu]
    exact h.posted u x hx

/-- A slice is posted only into a slot that its task holds. -/
theorem not_posted (h : Balanced maxLen s)
    (hhold : ∀ idx, s.ledger.holds.get? t ≠ some (.slot idx)) :
    ∀ u x, s.ledger.posted.get? u = some x → u ≠ t ∧ s.ledger.posted.get? u = some x := by
  intro u x hx
  refine ⟨?_, hx⟩
  rintro rfl
  exact hhold x.1 (h.posted u x hx).1

/-- A task without a slot takes a permit or, with the permit, a slot. -/
theorem takes (h : Balanced maxLen s) {slab : RecvSlab} {hold : Hold}
    (hhold : ∀ idx, s.ledger.holds.get? t ≠ some (.slot idx))
    (hslab : SlabOk slab (s.ledger.holds.insert t hold)) :
    Balanced maxLen { s with
      slab := slab, ledger := { s.ledger with holds := s.ledger.holds.insert t hold } } := by
  apply h.of_slab (t := t)
  · rfl
  · rfl
  · exact hslab
  · intro u hu
    rw [FinMap.get?_insert, if_neg hu]
  · exact h.not_posted hhold

theorem posts (h : Balanced maxLen s) {idx len : Nat}
    (hhold : s.ledger.holds.get? t = some (.slot idx)) (hlen : len ≤ 8 + maxLen) :
    Balanced maxLen { s with
      ledger := { s.ledger with posted := s.ledger.posted.insert t (idx, len) } } := by
  refine ⟨h.counted, h.accounted, h.slab, ?_⟩
  intro u x hx
  rw [FinMap.get?_insert] at hx
  split at hx
  · rename_i hu
    cases hx
    rw [hu]
    exact ⟨hhold, hlen⟩
  · exact h.posted u x hx

theorem gives (h : Balanced maxLen s) {idx : Nat}
    (hhold : s.ledger.holds.get? t = some (.slot idx)) :
    Balanced maxLen { s with
      slab := s.slab.push idx
      ledger := { s.ledger with
        holds := s.ledger.holds.insert t .returned, posted := s.ledger.posted.erase t } } := by
  apply h.of_slab (t := t)
  · rfl
  · rfl
  · exact h.slab.push hhold
  · intro u hu
    rw [FinMap.get?_insert, if_neg hu]
  · intro u x hx
    rw [FinMap.get?_erase] at hx
    split at hx
    · cases hx
    · rename_i hu
      exact ⟨hu, hx⟩

theorem leaves (h : Balanced maxLen s) (hhold : s.ledger.holds.get? t = some .returned) :
    Balanced maxLen { s with
      slab := s.slab.releasePermit
      ledger := { s.ledger with holds := s.ledger.holds.erase t } } := by
  apply h.of_slab (t := t)
  · rfl
  · rfl
  · exact h.slab.releasePermit hhold
  · intro u hu
    rw [FinMap.get?_erase, if_neg hu]
  · apply h.not_posted
    intro idx
    rw [hhold]
    simp

theorem step (h : Balanced maxLen s) (hready : (s.ledger.task t).ready maxLen o)
    (hdid : Did t s o r s') : Balanced maxLen s' := by
  cases hdid with
  | looked | sent | exchanged | desynced => exact h
  | marked peerId hkeeps | broke ep hkeeps | updated peerId peerAddrBlob hkeeps | reaped hkeeps
  | refused peerId peerAddrBlob hkeeps => exact h.keeps hkeeps rfl rfl rfl rfl
  | entered peerId peerAddrBlob hkeeps hout =>
      exact h.enters hready.2 hkeeps hout rfl rfl rfl rfl
  | released checkedOut =>
      obtain ⟨-, addr, hheld⟩ := hready
      exact h.releases hheld rfl rfl rfl rfl
  | closed ep => exact h.of_rt rfl rfl h.counted h.accounted
  | acquired hacquire =>
      have hhold : s.ledger.holds.get? t = none := hready.2
      apply h.takes
      · simp [hhold]
      · exact h.slab.acquire hhold hacquire
  | popped hpop =>
      have hhold : s.ledger.holds.get? t = some .permit := hready.2
      apply h.takes
      · simp [hhold]
      · exact h.slab.pop hhold hpop
  | posted idx len => exact h.posts hready.2.1 hready.2.2
  | pushed idx => exact h.gives hready.2
  | left => exact h.leaves hready.2

/-- There is an index for a task with a permit. -/
theorem told (h : Balanced maxLen s) (hready : (s.ledger.task t).ready maxLen o)
    (hdid : Did t s o r s') : told o r := by
  cases hdid with
  | desynced hempty => exact absurd hempty (h.slab.free_of_permit hready.2)
  | popped hpop => exact Option.some_ne_none _
  | entered peerId peerAddrBlob hkeeps hout => exact hout.peer
  | _ => trivial

theorem new (me : String) (n chunkSize : Nat) : Balanced maxLen (State.new me n chunkSize) := by
  refine ⟨Counted.empty fun _ => rfl, ?_, SlabOk.fresh n (8 + chunkSize), ?_⟩
  · intro ep
    rfl
  · intro t x hx
    cases hx

end Balanced

section Sound

variable {me : String} {maxLen : Nat}

/-- The ledgers are balanced, and they say of every task what it has. -/
structure Inv (me : String) (maxLen : Nat) (s : State) (ws : Views (protocol me maxLen)) :
    Prop where
  tied : ∀ t v, ws t = some v → s.ledger.task t = v.loc
  fresh : ∀ t, ws t = none → s.ledger.task t = .idle
  balanced : Balanced maxLen s

/-- A view that says the same. -/
theorem Inv.same {s : State} {ws : Views (protocol me maxLen)} {t : Nat}
    {v w : View (protocol me maxLen)} (h : Inv me maxLen s ws) (hv : ws t = some v)
    (hw : w.loc = v.loc) : Inv me maxLen s (Function.update ws t (some w)) := by
  refine ⟨Views.forall_update h.tied ?_, ?_, h.balanced⟩
  · rw [hw]
    exact h.tied t v hv
  · intro u hu
    apply h.fresh
    by_cases hut : u = t
    · subst hut
      rw [Function.update_self] at hu
      cases hu
    · rwa [Function.update_of_ne hut] at hu

theorem Inv.start {s : State} {ws : Views (protocol me maxLen)} {t : Nat} (j : Job)
    (h : Inv me maxLen s ws) (ht : ws t = none) :
    Inv me maxLen s (Function.update ws t (some ⟨j, none, Task.idle⟩)) := by
  refine ⟨Views.forall_update h.tied (h.fresh t ht), ?_, h.balanced⟩
  intro u hu
  by_cases hut : u = t
  · subst hut
    exact h.fresh u ht
  · rw [Function.update_of_ne hut] at hu
    exact h.fresh u hu

theorem Inv.op {s s' : State} {ws : Views (protocol me maxLen)} {t : Nat}
    {v : View (protocol me maxLen)} {o : Op} {r : o.Resp} (h : Inv me maxLen s ws)
    (hv : ws t = some v) (hdid : Did t s o r s')
    (hready : (s.ledger.task t).ready maxLen o) :
    Inv me maxLen s' (Function.update ws t (some (v.next o r))) := by
  have htask := hdid.task
  refine ⟨?_, ?_, h.balanced.step hready hdid⟩
  · intro u w hw
    rw [htask]
    rcases update_eq_some hw with ⟨rfl, rfl⟩ | ⟨hut, hu⟩
    · rw [if_pos rfl, h.tied u v hv]
      rfl
    · rw [if_neg hut]
      exact h.tied u w hu
  · intro u hu
    by_cases hut : u = t
    · subst hut
      rw [Function.update_self] at hu
      cases hu
    · rw [Function.update_of_ne hut] at hu
      rw [htask, if_neg hut]
      exact h.fresh u hu

theorem sound {G : State → Event (machine me) → Prop}
    (hG : ∀ s j, G s (.start j) → Job.bounded maxLen j) :
    Sound (protocol me maxLen) G (Inv me maxLen) where
  body j hj := body_sat hj
  start h ht _ hstart := ⟨hG _ _ hstart, h.start _ ht⟩
  op {s ws t v o c r s'} h hv hpre _ hex := by
    have hdid := did_of_exec hex
    have hready : (s.ledger.task t).ready maxLen o := by
      rw [h.tied t v hv]
      exact hpre
    exact ⟨h.balanced.told hready hdid, h.op hv hdid hready⟩
  spawn _ _ _ _ hpre := hpre.elim
  join h hv _ _ _ := h.same hv rfl
  lost h hv _ _ _ := h.same hv rfl
  cancel _ _ hcan := by cases hcan

theorem Inv.new (n chunkSize : Nat) : Inv me maxLen (State.new me n chunkSize) fun _ => none :=
  ⟨fun _ _ h => by (cases h), fun _ _ => rfl, .new me n chunkSize⟩

/-- In every state that a run reaches the ledgers are balanced. -/
theorem balanced_reach {G : State → Event (machine me) → Prop} {n chunkSize : Nat}
    (hG : ∀ s j, G s (.start j) → Job.bounded maxLen j) {c : Config (machine me)}
    (hrun : Config.Reach G (.init (State.new me n chunkSize)) c) : Balanced maxLen c.state := by
  obtain ⟨ws, -, hinv⟩ := (sound hG).reach (Inv.new n chunkSize) hrun
  exact hinv.balanced

end Sound

end BlobCache.Ucx
