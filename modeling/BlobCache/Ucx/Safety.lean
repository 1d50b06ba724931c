import BlobCache.Ucx.Custody

/-!
What the UCX runtime guarantees, in every run: an endpoint stays open while a task uses
it; an endpoint is in its slot or closed once, as long as no replacement fails; and the
slices that fetches receive into are apart, as long as no fetch asks for more than a
chunk.
-/

namespace BlobCache.Ucx

open Conc Holders

variable {me : String} {n chunkSize : Nat} {G : State → Event (machine me) → Prop}
  {c : Config (machine me)}

/-! ## Endpoints in use -/

/-- Every length is a 32-bit number. -/
theorem bounded_u32 (j : Job) : j.bounded (2 ^ 32) := by
  cases j with
  | clientFetch _ _ _ length => exact fun _ => Nat.le_of_lt length.toNat_lt
  | _ => trivial

/-- In every state that a run reaches, the slot of a peer counts the checkouts of the peer;
the endpoint of every checkout is the one in the slot, and was created for the address that
was asked for; and no endpoint that was taken out for closing is checked out. -/
theorem endpoint_stays_while_used
    (hrun : Config.Reach G (.init (State.new me n chunkSize)) c) :
    (∀ peer slot, c.state.rt.peerEps.get? peer = some slot →
      slot.inFlight = sharing c.state.ledger.outstanding peer) ∧
    (∀ t peer ep addr, c.state.ledger.outstanding.get? t = some (peer, ep, addr) →
      ∃ slot, c.state.rt.peerEps.get? peer = some slot ∧ slot.ep = ep ∧
        slot.peerAddrBlob = addr) ∧
    ∀ ep ∈ c.state.ledger.removed, ∀ t peer addr,
      c.state.ledger.outstanding.get? t ≠ some (peer, ep, addr) := by
  have hbalanced : Balanced (2 ^ 32) c.state :=
    balanced_reach (fun _ j _ => bounded_u32 j) hrun
  have hslot (t : Nat) (peer : String) (ep : Nat) (addr : Bytes)
      (hout : c.state.ledger.outstanding.get? t = some (peer, ep, addr)) :
      ∃ slot, c.state.rt.peerEps.get? peer = some slot ∧ slot.ep = ep ∧
        slot.peerAddrBlob = addr := by
    have hvalue := hbalanced.counted.value t _ hout
    obtain ⟨slot, hget, hsame⟩ := Option.map_eq_some_iff.mp hvalue
    cases hsame
    exact ⟨slot, hget, rfl, rfl⟩
  refine ⟨?_, hslot, ?_⟩
  · intro peer slot hget
    rw [← hbalanced.counted.count, RuntimeState.inFlight_of_slot hget]
  · intro ep hremoved t peer addr hout
    obtain ⟨slot, hget, hep, -⟩ := hslot t peer ep addr hout
    have hin := FinMap.le_total (fun s : EndpointSlot => if s.ep = ep then 1 else 0) hget
    have hgone := List.count_pos_iff.mpr hremoved
    have honce := hbalanced.accounted ep
    rw [if_pos hep] at hin
    unfold RuntimeState.slots at honce
    split at honce <;> omega

/-- Nothing fails, and an empty response arrives. -/
def calm : Choice := ⟨.ok (), .ok (), .ok []⟩

def fetchOf (length : UInt32) : Job := .clientFetch "p" [7] ⟨"m", "b", 0⟩ length 0 ""

/-- Two fetches from one peer, up to the point where both receives are posted. -/
def twoFetches (length : UInt32) : List (Label (machine "me")) :=
  [.start (fetchOf length)] ++ List.replicate 4 (.run 0 calm) ++
    [.start (fetchOf length)] ++ List.replicate 4 (.run 1 calm)

theorem endpoint_stays_while_used_of_two :
    ∃ c : Config (machine "me"),
      Config.Reach (fun _ _ => True) (.init (State.new "me" 2 4096)) c ∧
      c.state.ledger.outstanding.get? 0 = some ("p", 0, [7]) ∧
      ∃ slot, c.state.rt.peerEps.get? "p" = some slot ∧ slot.ep = 0 ∧ slot.inFlight = 2 := by
  obtain ⟨c, hrun, hc⟩ := Config.reach_of_labels (.init (State.new "me" 2 4096)) (twoFetches 4096)
    (fun c => let s : State := c.state
      decide (s.ledger.outstanding.get? 0 = some ("p", 0, [7])) &&
        decide (sharing s.ledger.outstanding "p" = 2)) (by decide +kernel)
  simp only [Bool.and_eq_true, decide_eq_true_eq] at hc
  obtain ⟨hheld, htwo⟩ := hc
  obtain ⟨hcount, hslot, -⟩ := endpoint_stays_while_used hrun
  obtain ⟨slot, hget, hep, -⟩ := hslot 0 "p" 0 [7] hheld
  exact ⟨c, hrun, hheld, slot, hget, hep, (hcount "p" slot hget).trans htwo⟩

/-! ## Endpoints that are lost -/

/-- The slot of the peer is for another address, and nobody uses it. -/
def replaces (s : State) (peerId : String) (peerAddrBlob : Bytes) : Prop :=
  ∃ slot, s.rt.peerEps.get? peerId = some slot ∧ slot.peerAddrBlob ≠ peerAddrBlob ∧
    slot.inFlight = 0

/-- When a client or server function replaces an endpoint, the new one can be created. -/
def Replaceable (G : State → Event (machine me) → Prop) : Prop :=
  ∀ s t peerId peerAddrBlob ch, G s (.op t (.enter peerId peerAddrBlob) ch) →
    replaces s peerId peerAddrBlob → ch.create = .ok ()

/-- Every endpoint that was taken out of its slot is in the hand of a task or closed. -/
def Conserved (l : Ledger) : Prop :=
  ∀ ep, FinMap.total (List.count ep) l.hands + l.closed.count ep = l.removed.count ep

section Conserved

variable {l : Ledger} {t : Nat}

theorem count_hand (l : Ledger) (t ep : Nat) :
    ((l.hands.get? t).map (List.count ep)).getD 0 = (l.hand t).count ep := by
  unfold Ledger.hand
  cases l.hands.get? t <;> rfl

theorem Conserved.handOut (h : Conserved l) (hhand : l.hand t = []) (eps : List Nat)
    (outstanding : FinMap Nat (String × Nat × Bytes)) :
    Conserved { l.handOut t eps with outstanding := outstanding } := by
  intro ep
  have htotal := FinMap.total_insert (List.count ep) l.hands t eps
  have hold := h ep
  rw [count_hand, hhand, List.count_nil] at htotal
  dsimp only [Ledger.handOut]
  rw [List.count_append]
  omega

theorem Conserved.close (h : Conserved l) {ep : Nat} {eps : List Nat}
    (hhand : l.hand t = ep :: eps) : Conserved (l.close t ep) := by
  intro ep'
  have htotal := FinMap.total_insert (List.count ep') l.hands t ((l.hand t).erase ep)
  have hold := h ep'
  rw [count_hand, hhand, List.erase_cons_head, List.count_cons] at htotal
  dsimp only [Ledger.close]
  rw [hhand, List.erase_cons_head, List.count_cons]
  omega

end Conserved

/-- An update that takes an endpoint out finds it idle and for another address, and leaves
no slot behind. -/
theorem replaces_of_removed {s : State} {peerId : String} {peerAddrBlob : Bytes} {ep : Nat}
    (h : (s.rt.updatePeerAddrBlob peerId peerAddrBlob).1 = some ep) :
    replaces s peerId peerAddrBlob ∧
      (s.rt.updatePeerAddrBlob peerId peerAddrBlob).2.peerEps.get? peerId = none := by
  unfold RuntimeState.updatePeerAddrBlob at h ⊢
  dsimp only at h ⊢
  split at h
  · cases h
  · rename_i slot hslot
    split at h
    · rename_i hidle
      refine ⟨⟨slot, hslot, hidle.1, hidle.2⟩, ?_⟩
      simp only [if_pos hidle, FinMap.get?_erase_self]
    · split at h <;> cases h

/-- A refusal lets go of no endpoint, if replacements can be created. -/
theorem refused_of_replaceable {s s' : State} {t : Nat} {peerId : String} {peerAddrBlob : Bytes}
    {ch : Choice} {removed : Option Nat} {e : BcError}
    (hcreate : replaces s peerId peerAddrBlob → ch.create = .ok ())
    (h : s.enter t peerId peerAddrBlob ch = ((removed, .error e), s')) : removed = none := by
  cases hremoved : (s.rt.updatePeerAddrBlob peerId peerAddrBlob).1 with
  | none =>
      unfold State.enter at h
      dsimp only at h
      split at h
      · cases h
        exact hremoved
      · cases h
  | some ep =>
      obtain ⟨hreplaces, hnone⟩ := replaces_of_removed hremoved
      simp only [State.enter, RuntimeState.checkoutEndpoint, hnone, RuntimeState.createPeerEp,
        hcreate hreplaces, Except.map] at h
      cases h

/-- The task is done, or its next operation closes nothing. -/
def resting (th : Thread effect) : Bool :=
  match th.status with
  | .running (.op (.close _) _) => false
  | .running (.op _ _) | .running (.ret _) | .done _ | .cancelled => true
  | .running (.spawn _ _) | .running (.join _ _) => false

/-- An operation lets go of no endpoint, if replacements can be created. -/
theorem conserved_exec {maxLen : Nat} {s s' : State} {t : Nat} {o : Op} {ch : Choice} {r : o.Resp}
    (h : Conserved s.ledger) (hready : (s.ledger.task t).ready maxLen o)
    (hcreate : ∀ peerId peerAddrBlob, o = .enter peerId peerAddrBlob →
      replaces s peerId peerAddrBlob → ch.create = .ok ())
    (hex : exec t o ch s = some (r, s')) : Conserved s'.ledger := by
  have hdid := did_of_exec hex
  cases hdid with
  | updated _ _ _ => exact h.handOut hready _ _
  | reaped _ => exact h.handOut hready _ _
  | released _ => exact h.handOut hready.1 _ _
  | entered _ _ _ _ => exact h.handOut hready.1 _ _
  | refused peerId peerAddrBlob _ =>
      have hremoved := refused_of_replaceable (hcreate peerId peerAddrBlob rfl)
        (Option.some.inj hex)
      subst hremoved
      exact h
  | closed ep =>
      obtain ⟨eps, hhand⟩ := hready
      exact h.close hhand
  | _ => exact h

theorem keeps_conserved (maxLen : Nat) (hG : Replaceable G) :
    Keeps (protocol me maxLen) G (Inv me maxLen) fun s _ => Conserved s.ledger where
  start _ h _ _ _ _ := h
  op {s ws t v o ch r s'} hinv h hv hpre hop hex _ := by
    have hready : (s.ledger.task t).ready maxLen o := by
      rw [hinv.tied t v hv]
      exact hpre
    apply conserved_exec h hready _ hex
    rintro peerId peerAddrBlob rfl
    exact hG s t peerId peerAddrBlob ch hop
  spawn _ h _ _ _ _ _ := h
  join _ h _ _ _ _ := h
  lost _ h _ _ _ _ := h
  cancel _ h _ _ _ := h

theorem hand_of_ready {maxLen : Nat} {l : Task} {o : Op} (h : l.ready maxLen o)
    (hne : ∀ ep, o ≠ .close ep) : l.hand = [] := by
  cases o with
  | close ep => exact absurd rfl (hne ep)
  | enter | release | acquire | popFree | postRecv | pushFree | releasePermit => exact h.1
  | addrOf | update | markBroken | takeBroken | errorCb | tagSend | exchange => exact h

/-- A task that rests has nothing in its hand. -/
theorem hand_of_resting {maxLen : Nat} {th : Thread effect} {v : View (protocol me maxLen)}
    (hok : ThreadOk (protocol me maxLen) th v) (hrest : resting th = true) :
    Task.hand v.loc = [] := by
  have hstatus := hok.status
  have hidle (h : v.loc = Task.idle) : Task.hand v.loc = [] := by
    rw [h]
    rfl
  cases hst : th.status with
  | running p =>
      rw [hst] at hstatus
      cases p with
      | ret x => exact hidle hstatus
      | op o k =>
          apply hand_of_ready hstatus.1
          rintro ep rfl
          simp [resting, hst] at hrest
      | spawn j k => simp [resting, hst] at hrest
      | join h k => simp [resting, hst] at hrest
  | done x =>
      rw [hst] at hstatus
      exact hidle hstatus
  | cancelled =>
      rw [hst] at hstatus
      obtain ⟨_, hdead⟩ := hstatus
      exact hidle hdead

/-- In every state that a run reaches in which replacements can be created, while no task
is closing an endpoint, every endpoint ever created is in a slot and was never passed to
`close_removed_endpoint`, or it is in none and was passed there once. -/
theorem endpoint_in_slot_or_closed (hG : Replaceable G)
    (hrun : Config.Reach G (.init (State.new me n chunkSize)) c)
    (hrest : ∀ th ∈ c.threads, resting th = true) :
    ∀ ep, ep < c.state.rt.created →
      ((∃ peer slot, c.state.rt.peerEps.get? peer = some slot ∧ slot.ep = ep) ∧
        c.state.ledger.closed.count ep = 0) ∨
      ((∀ peer slot, c.state.rt.peerEps.get? peer = some slot → slot.ep ≠ ep) ∧
        c.state.ledger.closed.count ep = 1) := by
  have hsound := (sound (fun _ j _ => bounded_u32 j)).and (keeps_conserved (2 ^ 32) hG)
  obtain ⟨ws, hagree, hinv, hconserved⟩ :=
    hsound.reach ⟨Inv.new n chunkSize, fun _ => rfl⟩ hrun
  -- no task has an endpoint in its hand
  have hhands (t : Nat) : c.state.ledger.hand t = [] := by
    have htask : (c.state.ledger.task t).hand = [] := by
      cases hw : ws t with
      | none =>
          rw [hinv.fresh t hw]
          rfl
      | some v =>
          obtain ⟨th, hth, hok⟩ := hagree.of_view hw
          rw [hinv.tied t v hw]
          exact hand_of_resting hok (hrest th (List.mem_of_getElem? hth))
    exact htask
  intro ep hep
  have hclosed : c.state.ledger.closed.count ep = c.state.ledger.removed.count ep := by
    have hempty : FinMap.total (List.count ep) c.state.ledger.hands = 0 := by
      by_contra hpos
      obtain ⟨t, eps, hget, hcount⟩ := FinMap.exists_of_total hpos
      have hhand := hhands t
      rw [Ledger.hand, hget] at hhand
      change eps = [] at hhand
      subst hhand
      exact hcount rfl
    have := hconserved ep
    omega
  have honce := hinv.balanced.accounted ep
  rw [if_pos hep] at honce
  by_cases hin : ∃ peer slot, c.state.rt.peerEps.get? peer = some slot ∧ slot.ep = ep
  · left
    refine ⟨hin, ?_⟩
    obtain ⟨peer, slot, hget, hslot⟩ := hin
    have hle := FinMap.le_total (fun s : EndpointSlot => if s.ep = ep then 1 else 0) hget
    rw [if_pos hslot] at hle
    unfold RuntimeState.slots at honce
    omega
  · right
    push Not at hin
    refine ⟨hin, ?_⟩
    have hzero : c.state.rt.slots ep = 0 := by
      by_contra hpos
      obtain ⟨peer, slot, hget, hslot⟩ := FinMap.exists_of_total hpos
      exact hslot (if_neg (hin peer slot hget))
    omega

/-- No endpoint creation fails. -/
def creates (e : Event (machine "me")) : Bool :=
  match e with
  | .op _ _ ch => Except.isOk (Choice.create ch)
  | _ => true

theorem replaceable_of_creates : Replaceable fun (_ : State) e => creates e = true := by
  intro s t peerId peerAddrBlob ch hcreates _
  have hok : ch.create.isOk = true := hcreates
  cases hch : ch.create with
  | ok _ => rfl
  | error e =>
      rw [hch] at hok
      cases hok

/-- A health check of the peer at one address, and one at another address in which the
environment does `ch`. -/
def twoAddresses (ch : Choice) : List (Label (machine "me")) :=
  [.start (.clientHealth "p" [7])] ++ List.replicate 3 (.run 0 calm) ++
    [.start (.clientHealth "p" [8])] ++ [.run 1 ch, .run 1 calm]

theorem endpoint_in_slot_or_closed_of_two :
    ∃ c : Config (machine "me"),
      Config.Reach (fun _ e => creates e = true) (.init (State.new "me" 2 4096)) c ∧
      c.quiescent = true ∧ c.state.rt.created = 2 ∧ c.state.ledger.closed = [0] ∧
      ∃ peer slot, c.state.rt.peerEps.get? peer = some slot ∧ slot.ep = 1 := by
  obtain ⟨c, hrun, hc⟩ := Config.reach_of_replay (G := fun _ e => creates e) (fun _ _ h => h)
    (.init (State.new "me" 2 4096)) (twoAddresses calm ++ List.replicate 2 (.run 1 calm))
    (fun c => let s : State := c.state
      c.quiescent && c.threads.all resting && decide (s.rt.created = 2) &&
        decide (s.ledger.closed = [0])) (by decide +kernel)
  simp only [Bool.and_eq_true, decide_eq_true_eq] at hc
  obtain ⟨⟨⟨hquiet, hrest⟩, hcreated⟩, hclosed⟩ := hc
  refine ⟨c, hrun, hquiet, hcreated, hclosed, ?_⟩
  rcases endpoint_in_slot_or_closed replaceable_of_creates hrun (List.all_eq_true.mp hrest) 1
    (by rw [hcreated]; decide) with ⟨hin, -⟩ | ⟨-, hcount⟩
  · exact hin
  · rw [hclosed] at hcount
    cases hcount

/-- The peer has moved and the endpoint for its new address cannot be created: the old
endpoint is in no slot any more and is never closed. -/
theorem replaced_endpoint_lost :
    ∃ c : Config (machine "me"),
      Config.Reach (fun _ _ => True) (.init (State.new "me" 2 4096)) c ∧ c.quiescent = true ∧
      c.state.rt.created = 1 ∧ c.state.rt.peerEps.keys = [] ∧ c.state.ledger.closed = [] := by
  obtain ⟨c, hrun, hc⟩ := Config.reach_of_labels (.init (State.new "me" 2 4096))
    (twoAddresses { calm with create := .error (.peer "ucp_ep_create failed") })
    (fun c => let s : State := c.state
      c.quiescent && decide (s.rt.created = 1) && decide (s.rt.peerEps.keys = []) &&
        decide (s.ledger.closed = [])) (by decide +kernel)
  simp only [Bool.and_eq_true, decide_eq_true_eq] at hc
  obtain ⟨⟨⟨hquiet, hcreated⟩, hkeys⟩, hclosed⟩ := hc
  exact ⟨c, hrun, hquiet, hcreated, hkeys, hclosed⟩

/-! ## The slab -/

theorem Did.slab_sizes {s s' : State} {t : Nat} {o : Op} {r : o.Resp} (h : Did t s o r s') :
    s'.slab.nSlots = s.slab.nSlots ∧ s'.slab.slotSize = s.slab.slotSize := by
  cases h with
  | acquired hacquire =>
      unfold RecvSlab.acquire at hacquire
      split at hacquire
      · cases hacquire
      · cases hacquire
        exact ⟨rfl, rfl⟩
  | popped hpop =>
      unfold RecvSlab.pop at hpop
      split at hpop
      · cases hpop
      · cases hpop
        exact ⟨rfl, rfl⟩
  | _ => exact ⟨rfl, rfl⟩

/-- The sizes of the slab are those it was made with. -/
theorem slab_sizes (hrun : Config.Reach G (.init (State.new me n chunkSize)) c) :
    c.state.slab.nSlots = n ∧ c.state.slab.slotSize = 8 + chunkSize := by
  apply Config.Reach.state_inv
    (P := fun s : State => s.slab.nSlots = n ∧ s.slab.slotSize = 8 + chunkSize) _ _ _ hrun
  · intro s t o ch r s' h hex
    obtain ⟨hn, hsize⟩ := (did_of_exec hex).slab_sizes
    exact ⟨hn.trans h.1, hsize.trans h.2⟩
  · intro s t h
    exact h
  · exact ⟨rfl, rfl⟩

/-- The free indices and those that fetches hold are all indices, each once. -/
structure Partition (slab : RecvSlab) (holds : FinMap Nat Hold) : Prop where
  nodup : slab.free.Nodup
  free : ∀ i ∈ slab.free, i < slab.nSlots
  held : ∀ t i, holds.get? t = some (.slot i) → i < slab.nSlots ∧ i ∉ slab.free
  apart : ∀ t u i, holds.get? t = some (.slot i) → holds.get? u = some (.slot i) → t = u
  cover : ∀ i, i < slab.nSlots → i ∈ slab.free ∨ ∃ t, holds.get? t = some (.slot i)

theorem SlabOk.partition {slab : RecvSlab} {holds : FinMap Nat Hold} (h : SlabOk slab holds) :
    Partition slab holds where
  nodup := h.dealt.nodup
  free _ hi := h.dealt.lt_of_free hi
  held _ _ hheld := h.dealt.taken hheld rfl
  apart t u i ht hu := by
    by_contra hne
    exact h.dealt.apart hne ht hu rfl rfl
  cover i hi := by
    rcases h.dealt.free_or_taken hi with hfree | ⟨t, hold, hheld, hplace⟩
    · exact .inl hfree
    · right
      cases hold with
      | slot idx =>
          cases hplace
          exact ⟨t, hheld⟩
      | permit => cases hplace
      | returned => cases hplace

/-- A slice that a fetch receives into lies in its own slot and in the buffer, and apart
from those of the other fetches. -/
structure Isolated (slab : RecvSlab) (ledger : Ledger) (t idx len : Nat) : Prop where
  held : ledger.holds.get? t = some (.slot idx)
  inSlot : slab.start idx + len ≤ slab.start (idx + 1)
  inBacking : slab.start idx + len ≤ slab.backingLen
  disjoint : ∀ u idx' len', u ≠ t → ledger.posted.get? u = some (idx', len') →
    slab.start idx + len ≤ slab.start idx' ∨ slab.start idx' + len' ≤ slab.start idx

theorem Balanced.isolated {s : State} (h : Balanced chunkSize s)
    (hsize : s.slab.slotSize = 8 + chunkSize) {t idx len : Nat}
    (hposted : s.ledger.posted.get? t = some (idx, len)) :
    Isolated s.slab s.ledger t idx len := by
  obtain ⟨hheld, hlen⟩ := h.posted t _ hposted
  rw [← hsize] at hlen
  have hpart := h.slab.partition
  refine ⟨hheld, slice_in_slot hlen, slice_in_backing (hpart.held t idx hheld).1 hlen, ?_⟩
  intro u idx' len' hne hposted'
  obtain ⟨hheld', hlen'⟩ := h.posted u _ hposted'
  rw [← hsize] at hlen'
  apply slices_disjoint _ hlen hlen'
  rintro rfl
  exact hne (hpart.apart u t idx hheld' hheld)

/-- In every state that a run reaches in which no fetch that is let through asks for more
than a chunk: the indices are partitioned, a fetch with a permit finds a free one, also
when it is about to look, and every slice that is received into is isolated. -/
theorem slab_isolated (hG : ∀ s j, G s (.start j) → Job.bounded chunkSize j)
    (hrun : Config.Reach G (.init (State.new me n chunkSize)) c) :
    c.state.slab.nSlots = n ∧ Partition c.state.slab c.state.ledger.holds ∧
    (∀ t, c.state.ledger.holds.get? t = some .permit → c.state.slab.free ≠ []) ∧
    (∀ th ∈ c.threads, ∀ k, th.status = .running (.op Op.popFree k) → c.state.slab.free ≠ []) ∧
    ∀ t idx len, c.state.ledger.posted.get? t = some (idx, len) →
      Isolated c.state.slab c.state.ledger t idx len := by
  obtain ⟨ws, hagree, hinv⟩ := (sound hG).reach (Inv.new n chunkSize) hrun
  obtain ⟨hn, hsize⟩ := slab_sizes hrun
  have hbalanced := hinv.balanced
  refine ⟨hn, hbalanced.slab.partition, ?_, ?_, ?_⟩
  · intro t hpermit
    exact hbalanced.slab.free_of_permit hpermit
  · intro th hth k hst
    obtain ⟨t, hth⟩ := List.mem_iff_getElem?.mp hth
    obtain ⟨v, hv, hok⟩ := hagree.thread t th hth
    have hstatus := hok.status
    rw [hst] at hstatus
    have hready : (c.state.ledger.task t).ready chunkSize .popFree := by
      rw [hinv.tied t v hv]
      exact hstatus.1
    exact hbalanced.slab.free_of_permit hready.2
  · intro t idx len hposted
    exact hbalanced.isolated hsize hposted

/-- Fetches ask for at most a chunk of 4096 bytes. -/
def chunkSized (e : Event (machine "me")) : Bool :=
  match e with
  | .start (.clientFetch _ _ _ length _ _) => decide (length.toNat ≤ 4096)
  | _ => true

theorem bounded_of_chunkSized (j : Job) (h : chunkSized (.start j) = true) : j.bounded 4096 := by
  cases j with
  | clientFetch _ _ _ length => exact fun _ => of_decide_eq_true h
  | _ => trivial

theorem slab_isolated_of_two :
    ∃ c : Config (machine "me"),
      Config.Reach (fun _ e => chunkSized e = true) (.init (State.new "me" 2 4096)) c ∧
      Isolated c.state.slab c.state.ledger 0 0 4104 ∧
      Isolated c.state.slab c.state.ledger 1 1 4104 := by
  obtain ⟨c, hrun, hc⟩ := Config.reach_of_replay (G := fun _ e => chunkSized e) (fun _ _ h => h)
    (.init (State.new "me" 2 4096)) (twoFetches 4096)
    (fun c => let s : State := c.state
      decide (s.ledger.posted.get? 0 = some (0, 4104)) &&
        decide (s.ledger.posted.get? 1 = some (1, 4104))) (by decide +kernel)
  simp only [Bool.and_eq_true, decide_eq_true_eq] at hc
  obtain ⟨hfirst, hsecond⟩ := hc
  obtain ⟨-, -, -, -, hisolated⟩ := slab_isolated (fun _ j h => bounded_of_chunkSized j h) hrun
  exact ⟨c, hrun, hisolated 0 0 4104 hfirst, hisolated 1 1 4104 hsecond⟩

/-- Two fetches of one byte more than a chunk: the first receives into the slot of the
second, and the second beyond the end of the buffer. -/
theorem long_fetch_overruns_slot :
    ∃ c : Config (machine "me"),
      Config.Reach (fun _ _ => True) (.init (State.new "me" 2 4096)) c ∧
      c.state.ledger.posted.get? 0 = some (0, 4105) ∧
      c.state.ledger.posted.get? 1 = some (1, 4105) ∧
      c.state.slab.start 1 < c.state.slab.start 0 + 4105 ∧
      c.state.slab.backingLen < c.state.slab.start 1 + 4105 := by
  obtain ⟨c, hrun, hc⟩ := Config.reach_of_labels (.init (State.new "me" 2 4096)) (twoFetches 4097)
    (fun c => let s : State := c.state
      decide (s.ledger.posted.get? 0 = some (0, 4105)) &&
        decide (s.ledger.posted.get? 1 = some (1, 4105)) &&
        decide (s.slab.start 1 < s.slab.start 0 + 4105) &&
        decide (s.slab.backingLen < s.slab.start 1 + 4105)) (by decide +kernel)
  simp only [Bool.and_eq_true, decide_eq_true_eq] at hc
  obtain ⟨⟨⟨hfirst, hsecond⟩, hslot⟩, hbacking⟩ := hc
  exact ⟨c, hrun, hfirst, hsecond, hslot, hbacking⟩

end BlobCache.Ucx
