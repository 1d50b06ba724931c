import BlobCache.Cluster.Isolation

/-!
How recent records are. Once a node is silent nobody can make its record look
younger, so sweeps find it dead; gossip among the others does not keep it alive.
A node that does speak is believed at once, unless the receiver already holds a
record of the same second.
-/

namespace BlobCache.Cluster.Gossip

open Conc

variable {ι : Type} [DecidableEq ι] {template : ι → NodeInfo}

/-- The node that takes a step. -/
def actor : Section ι → Option ι
  | .tick => none
  | .setBloomVersion i _ | .sweep i _ | .snapshot i | .send i _ _ _ | .forward i _ _ _
  | .deliver i _ _ | .touch i _ _ => some i

/-- The node whose payload a step handles. -/
def handled (s : Gossip ι) : Section ι → Option ι
  | .deliver _ message _ => s.sent[message]?.map (·.source)
  | .touch _ entry _ => s.merged[entry]?.map (·.2.source)
  | _ => none

/-- After the second `stop`, `x` takes no step and no payload of `x` is
handled. -/
def SilentAfter (x : ι) (stop : Nat) (s : Gossip ι) (l : Section ι) : Prop :=
  stop < s.clock → actor l ≠ some x ∧ s.handled l ≠ some x

/-- No record of the id, wherever it is, was seen after `stop`. -/
structure SeenBy (id : String) (stop : Nat) (s : Gossip ι) : Prop where
  table : ∀ i r, (s.nodes i).members.get? id = some r → r.lastSeenUnix ≤ stop
  draft : ∀ i r, (i, r) ∈ s.drafts → r.id = id → r.lastSeenUnix ≤ stop
  sent : ∀ msg ∈ s.sent, ∀ r ∈ msg.records, r.id = id → r.lastSeenUnix ≤ stop

omit [DecidableEq ι] in
theorem SeenBy.init {x : ι} {stop clock : Nat} (hx : (template x).lastSeenUnix ≤ stop)
    (hids : ∀ i, (template i).id = (template x).id → i = x) :
    SeenBy (template x).id stop (.init template clock) where
  table i r h := by
    simp only [Gossip.init, Membership.new, Table.get?_insert, Table.get?_empty] at h
    split at h
    · rename_i hid
      cases h
      rw [hids i hid.symm]
      exact hx
    · cases h
  draft _ _ h := absurd h List.not_mem_nil
  sent _ h := absurd h List.not_mem_nil

omit [DecidableEq ι] in
theorem SeenBy.seen {id : String} {stop : Nat} {s : Gossip ι} (h : SeenBy id stop s) {i : ι}
    {r : NodeInfo} (hr : r ∈ s.seenBy i) (hid : r.id = id) : r.lastSeenUnix ≤ stop := by
  rcases List.mem_append.mp hr with hr | hr
  · exact h.table i r (hid ▸ Table.mem_values_iff.mp hr)
  · obtain ⟨msg, hmsg, hr⟩ := List.mem_flatMap.mp hr
    exact h.sent msg hmsg r hr hid

theorem SeenBy.step {x : ι} {stop : Nat} {s s' : Gossip ι} {l : Section ι}
    (hauth : Authentic template s) (hids : ∀ i, (template i).id = (template x).id → i = x)
    (hsilent : SilentAfter x stop s l) (h : SeenBy (template x).id stop s)
    (hstep : s.Stepped l s') : SeenBy (template x).id stop s' where
  table i r hr := by
    cases hstep.record hr with
    | kept hbefore hident hseen => exact hseen ▸ h.table i _ hbefore
    | @touched r0 entry now msg hl hmsg hid hbefore hident hseen =>
        -- Only the silent node's own payload touches its record.
        subst hl
        have hsent := hauth.merged i msg (List.mem_of_getElem? hmsg)
        have hident' := congrArg (·.1.id) (hauth.sender msg hsent)
        have hsource : msg.source = x := hids _ (hident'.symm.trans hid)
        have hclock : s.clock ≤ stop := by
          by_contra hlate
          exact (hsilent (not_le.mp hlate)).2 (by simp [handled, hmsg, hsource])
        exact hseen.trans hclock
    | @arrived message now msg hl hmsg hmem hid hhash =>
        exact h.sent msg (List.mem_of_getElem? hmsg) r hmem (id_of_get? hr)
    | own hl hid hident hseen =>
        have hme : i = x := by
          rw [Membership.meId, hauth.node i] at hid
          exact hids i hid.symm
        have hclock : s.clock ≤ stop := by
          by_contra hlate
          exact (hsilent (not_le.mp hlate)).1 (by simp [actor, hl, hme])
        exact hseen.trans hclock
  draft i r hr hid := by
    rcases hstep.draft hr with hr | ⟨hl, rfl⟩
    · exact h.draft i r hr hid
    · have hme : i = x := by
        apply hids i
        rw [← hauth.node i]
        exact hid
      change s.clock ≤ stop
      by_contra hlate
      exact (hsilent (not_le.mp hlate)).1 (by simp [actor, hl, hme])
  sent msg hmsg r hr hid := by
    rcases hstep.sent hmsg with hmsg | ⟨hdraft, hseen⟩
    · exact h.sent msg hmsg r hr hid
    · rcases List.mem_append.mp hr with hr | hr
      · exact h.seen (hseen r hr) hid
      · rw [List.mem_singleton.mp hr] at hid ⊢
        exact h.draft _ _ hdraft hid

theorem seenBy_run {x : ι} {stop clock : Nat} {s : Gossip ι}
    (hx : (template x).lastSeenUnix ≤ stop)
    (hids : ∀ i, (template i).id = (template x).id → i = x)
    (hrun : Run Gossip.step (SilentAfter x stop) (.init template clock) s) :
    SeenBy (template x).id stop s := by
  have hboth : Authentic template s ∧ SeenBy (template x).id stop s := by
    apply hrun.inv
    · rintro s l s' ⟨hauth, hseen⟩ hsilent hstep
      exact ⟨hauth.step (stepped hstep), hseen.step hauth hids hsilent (stepped hstep)⟩
    · exact ⟨.init template clock, .init hx hids⟩
  exact hboth.2

/-- Gossip cannot keep a dead node alive. When `x` is silent after `stop`, no
record of it in a table or in flight is younger than that, and every sweep at a
second after `stop + 60` leaves it dead and out of the node's live peers. -/
theorem silent_node_dies (template : ι → NodeInfo) (clock : Nat) (x : ι) (stop : Nat)
    (hx : (template x).lastSeenUnix ≤ stop)
    (hids : ∀ i, (template i).id = (template x).id → i = x) (s : Gossip ι)
    (hrun : Run Gossip.step (SilentAfter x stop) (.init template clock) s) :
    (∀ r, r.id = (template x).id →
      ((∃ i, r ∈ (s.nodes i).membersAll) ∨ ∃ msg ∈ s.sent, r ∈ msg.records) →
        r.lastSeenUnix ≤ stop) ∧
      ∀ i now s', stop + 60 < now → SilentAfter x stop s (.sweep i now) →
        s.step (.sweep i now) = some s' →
        (∀ r, (s'.nodes i).members.get? (template x).id = some r → r.state = .dead) ∧
          ∀ r ∈ (s'.nodes i).membersAlive, r.id ≠ (template x).id := by
  have hseen := seenBy_run hx hids hrun
  constructor
  · rintro r hid (⟨i, hr⟩ | ⟨msg, hmsg, hr⟩)
    · exact hseen.table i r (hid ▸ Table.mem_values_iff.mp hr)
    · exact hseen.sent msg hmsg r hr hid
  · intro i now s' hnow hsilent hstep
    simp only [Gossip.step] at hstep
    split at hstep
    · rename_i hclock
      cases hstep
      have hne : (template x).id ≠ (s.nodes i).meId := by
        intro hid
        rw [Membership.meId, (authentic_run hrun).node i] at hid
        exact (hsilent (by omega)).1 (by simp [actor, hids i hid.symm])
      have hdead : ∀ r, ((s.nodes i).sweep now).members.get? (template x).id = some r →
          r.state = .dead :=
        fun r hr => Membership.sweep_dead hne (hseen.table i) hnow hr
      simp only [setNode_nodes, if_true]
      refine ⟨hdead, ?_⟩
      intro r hr hid
      obtain ⟨hmem, halive⟩ := List.mem_filter.mp hr
      simp only [decide_eq_true_eq] at halive
      have hstate := hdead r (hid ▸ Table.mem_values_iff.mp hmem)
      rw [halive.1] at hstate
      cases hstate
    · cases hstep

instance silentAfterDecidable (x : ι) (stop : Nat) (s : Gossip ι) (l : Section ι) :
    Decidable (SilentAfter x stop s l) :=
  inferInstanceAs (Decidable (stop < s.clock → actor l ≠ some x ∧ s.handled l ≠ some x))

/-- The second node is heard of once, and then a minute passes. -/
def silentRun (a b : ι) : List (Section ι) :=
  [.snapshot b, .send b 0 false [samplePeer "b" "h"], .deliver a 0 0, .touch a 0 0] ++
    List.replicate 61 .tick

theorem silent_node_dies_after_a_minute :
    ∃ s s', Run Gossip.step (SilentAfter 1 0) (.init sampleTemplate 0) s ∧
      s.step (.sweep 0 61) = some s' ∧ (s.nodes 0).membersAlive.map (·.id) = ["b"] ∧
      ∀ r ∈ (s'.nodes 0).membersAlive, r.id ≠ "b" := by
  obtain ⟨s, hrun, hp⟩ := run_of_replay Gossip.step
    (fun s l => decide (SilentAfter 1 0 s l)) (fun _ _ h => of_decide_eq_true h)
    (.init sampleTemplate 0) (silentRun 0 1)
    (fun s => s.clock = 61 ∧ (s.nodes 0).membersAlive.map (·.id) = ["b"]) (by decide +kernel)
  obtain ⟨hclock, halive⟩ := of_decide_eq_true hp
  have hstep : s.step (.sweep 0 61) = some (s.setNode 0 ((s.nodes 0).sweep 61)) :=
    if_pos hclock.ge
  have hdies := (silent_node_dies sampleTemplate 0 1 0 (by decide) (by decide) s hrun).2 0 61 _
    (by decide) (fun _ => ⟨by decide, nofun⟩) hstep
  exact ⟨s, _, hrun, hstep, halive, hdies.2⟩

/-! ### A direct exchange -/

/-- A record is older than another one of its id: an earlier incarnation, or
the same and seen in an earlier second. -/
def Older (r n : NodeInfo) : Prop :=
  r.incarnation < n.incarnation ∨
    r.incarnation = n.incarnation ∧ r.lastSeenUnix < n.lastSeenUnix

theorem Older.precedence_lt {r n : NodeInfo} (h : Older r n) : precedence r < precedence n := by
  rcases h with hlt | ⟨heq, hlt⟩
  · exact Prod.Lex.toLex_lt_toLex.mpr (.inl hlt)
  · exact Prod.Lex.toLex_lt_toLex.mpr (.inr ⟨heq, Prod.Lex.toLex_lt_toLex.mpr (.inl hlt)⟩)

/-- Merging a payload whose sender's snapshot is younger than what is known of
the sender stores the snapshot. -/
theorem merge_stores_sender {m : Membership} (now : Nat) {p : GossipPayload}
    (hid : p.sender.id ≠ m.meId) (hhash : p.sender.clusterHash = m.meTemplate.clusterHash)
    (htable : ∀ r, m.members.get? p.sender.id = some r → Older r p.sender)
    (hmembers : ∀ r ∈ p.members, r.id = p.sender.id → Older r p.sender) :
    (m.merge now (p.members ++ [p.sender])).members.get? p.sender.id = some p.sender := by
  have hconsider : m.considers p.sender.id p.sender = true := by
    simp [Membership.considers, hhash]
  rw [Membership.merge_get? m now _ hid, List.filter_append, List.filter_singleton, hconsider]
  apply best?_concat
  · exact fun r hr => (htable r hr).precedence_lt
  · intro r hr
    obtain ⟨hmem, hconsider⟩ := List.mem_filter.mp hr
    simp only [Membership.considers, decide_eq_true_eq] at hconsider
    exact (hmembers r hmem hconsider.1).precedence_lt

/-- A direct exchange conveys the sender's Bloom version when everything that
the receiver and the payload's members say of the sender is older than its
snapshot; touching the sender afterwards keeps it. -/
theorem exchange_conveys_version (template : ι → NodeInfo) (clock : Nat) (s s' : Gossip ι)
    (hrun : Run Gossip.step (fun _ _ => True) (.init template clock) s) (x y : ι)
    (hid : (template x).id ≠ (template y).id)
    (hhash : (template x).clusterHash = (template y).clusterHash) (message now : Nat)
    (msg : Message ι) (hmsg : s.sent[message]? = some msg) (hsource : msg.source = x)
    (htable : ∀ r, (s.nodes y).members.get? (template x).id = some r →
      Older r msg.payload.sender)
    (hmembers : ∀ r ∈ msg.payload.members, r.id = (template x).id → Older r msg.payload.sender)
    (hstep : s.step (.deliver y message now) = some s') :
    (∃ r, (s'.nodes y).members.get? (template x).id = some r ∧
      r.bloomVersion = msg.payload.sender.bloomVersion) ∧
      ∀ now', ∃ r, (acknowledge (s'.nodes y) now' msg.reply msg.payload).members.get?
          (template x).id = some r ∧ r.bloomVersion = msg.payload.sender.bloomVersion := by
  have hauth := authentic_run hrun
  have hsender := hauth.sender msg (List.mem_of_getElem? hmsg)
  rw [hsource] at hsender
  have hsid : msg.payload.sender.id = (template x).id := congrArg (·.1.id) hsender
  have hshash : msg.payload.sender.clusterHash = (s.nodes y).meTemplate.clusterHash := by
    rw [hauth.node y, ← hhash]
    exact congrArg (·.2.2) hsender
  have hstored : (s'.nodes y).members.get? (template x).id = some msg.payload.sender := by
    rw [← hsid] at htable hmembers ⊢
    have hmerged := merge_stores_sender now
      (fun h => hid (hsid.symm.trans (h.trans (congrArg (·.id) (hauth.node y)))))
      hshash htable hmembers
    cases stepped hstep with
    | post _ _ hl => rcases hl with hl | hl <;> cases hl
    | refuse _ hget hne =>
        cases hmsg.symm.trans hget
        exact absurd hshash hne
    | deliver _ hget _ _ =>
        cases hmsg.symm.trans hget
        change ((s.setNode y _).nodes y).members.get? _ = _
        rw [setNode_nodes, if_pos rfl]
        exact hmerged
  refine ⟨⟨_, hstored, rfl⟩, ?_⟩
  intro now'
  refine ⟨Membership.touched msg.payload.sender.id now' msg.payload.sender, ?_, ?_⟩
  · rw [acknowledge_members, Membership.touchPeer_get?, hstored]
    rfl
  · unfold Membership.touched
    split <;> rfl

/-- The second node advances its version and tells the first one, after
`seconds`. -/
def announceRun (b : ι) (seconds : Nat) : List (Section ι) :=
  List.replicate seconds .tick ++
    [.setBloomVersion b 5, .snapshot b, .send b 0 false [samplePeer "b" "h"]]

theorem exchange_conveys_version_a_second_later :
    ∃ (s : Gossip (Fin 3)) (s' : Gossip (Fin 3)) (r : NodeInfo),
      s.step (.deliver 0 0 1) = some s' ∧ (s'.nodes 0).members.get? "b" = some r ∧
        r.bloomVersion = 5 := by
  obtain ⟨s, hrun, hp⟩ := run_of_labels Gossip.step (.init sampleTemplate 0) (announceRun 1 1)
    (fun s => (s.step (.deliver 0 0 1)).isSome ∧ s.sent.length = 1 ∧
      (s.nodes 0).members.get? "b" = none ∧
      ∀ msg ∈ s.sent, msg.source = 1 ∧ msg.payload.sender.bloomVersion = 5 ∧
        msg.payload.sender.incarnation = 1 ∧ msg.payload.sender.lastSeenUnix = 1 ∧
        msg.payload.members = [samplePeer "b" "h"]) (by decide +kernel)
  obtain ⟨hsome, hlength, hunknown, hall⟩ := of_decide_eq_true hp
  obtain ⟨s', hstep⟩ := Option.isSome_iff_exists.mp hsome
  obtain ⟨msg, hsent⟩ := List.length_eq_one_iff.mp hlength
  obtain ⟨hsource, hversion, hinc, hseen, hmembers⟩ := hall msg (by simp [hsent])
  have hconveys := exchange_conveys_version sampleTemplate 0 s s' hrun 1 0 (by decide) (by decide)
    0 1 msg (by simp [hsent]) hsource
    (fun r hr => absurd (hunknown.symm.trans hr) (by simp))
    (fun r hr _ => .inr (by
      rw [hmembers, List.mem_singleton] at hr
      simp [hr, hinc, hseen, samplePeer]))
    hstep
  obtain ⟨r, hr, hbloom⟩ := hconveys.1
  exact ⟨s, s', r, hstep, hr, hbloom.trans hversion⟩

/-- In the second in which a node wrote its own entry, that entry comes first in
the payload and ties with the snapshot: the receiver keeps the template's
version. -/
theorem same_second_hides_version :
    ∃ s s' : Gossip (Fin 3), Run Gossip.step (fun _ _ => True) (.init sampleTemplate 0) s ∧
      (∃ msg, s.sent[0]? = some msg ∧ msg.source = 1 ∧
        msg.payload = ⟨(s.nodes 1).meSnapshot s.clock, (s.nodes 1).membersAll⟩ ∧
        msg.payload.sender.bloomVersion = 5) ∧
      s.step (.deliver 0 0 s.clock) = some s' ∧
      ((s'.nodes 0).members.get? "b").map (·.bloomVersion) = some 0 := by
  obtain ⟨s, hrun, hp⟩ := run_of_labels Gossip.step (.init sampleTemplate 0) (announceRun 1 0)
    (fun s => (s.sent[0]?.any fun msg => msg.source = 1 ∧
        msg.payload = ⟨(s.nodes 1).meSnapshot s.clock, (s.nodes 1).membersAll⟩ ∧
        msg.payload.sender.bloomVersion = 5) ∧
      (s.step (.deliver 0 0 s.clock)).any fun s' =>
        ((s'.nodes 0).members.get? "b").map (·.bloomVersion) = some 0) (by decide +kernel)
  obtain ⟨hmsg, hafter⟩ := of_decide_eq_true hp
  obtain ⟨msg, hmsg, hbuilt⟩ := Option.any_eq_true _ _ |>.mp hmsg
  obtain ⟨s', hstep, hversion⟩ := Option.any_eq_true _ _ |>.mp hafter
  exact ⟨s, s', hrun, ⟨msg, hmsg, of_decide_eq_true hbuilt⟩, hstep, of_decide_eq_true hversion⟩

end BlobCache.Cluster.Gossip
