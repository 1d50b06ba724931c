import BlobCache.Cluster.Gossip

/-!
Clusters do not mix. Every record that circulates is some node's own record with
newer times, states and counters; a table takes only records of its own cluster;
and the entry of the node itself stays, alive, whatever peers say about it.
-/

namespace BlobCache.Cluster.Gossip

open Conc

variable {ι : Type} [DecidableEq ι] {template : ι → NodeInfo}

/-- Everything in a state bears the identity of the node it speaks of. -/
structure Authentic (template : ι → NodeInfo) (s : Gossip ι) : Prop where
  node : ∀ i, (s.nodes i).meTemplate = template i
  table : ∀ i id r, (s.nodes i).members.get? id = some r →
    ∃ j, r.identity = (template j).identity
  draft : ∀ i r, (i, r) ∈ s.drafts → r.identity = (template i).identity
  sender : ∀ msg ∈ s.sent, msg.payload.sender.identity = (template msg.source).identity
  members : ∀ msg ∈ s.sent, ∀ r ∈ msg.payload.members, ∃ j, r.identity = (template j).identity
  merged : ∀ i msg, (i, msg) ∈ s.merged → msg ∈ s.sent

omit [DecidableEq ι] in
theorem Authentic.init (template : ι → NodeInfo) (clock : Nat) :
    Authentic template (.init template clock) where
  node _ := rfl
  table i id r h := by
    simp only [Gossip.init, Membership.new, Table.get?_insert, Table.get?_empty] at h
    split at h
    · cases h
      exact ⟨i, rfl⟩
    · cases h
  draft _ _ h := absurd h List.not_mem_nil
  sender _ h := absurd h List.not_mem_nil
  members _ h := absurd h List.not_mem_nil
  merged _ _ h := absurd h List.not_mem_nil

omit [DecidableEq ι] in
theorem Authentic.record {s : Gossip ι} (h : Authentic template s) {msg : Message ι}
    (hmsg : msg ∈ s.sent) {r : NodeInfo} (hr : r ∈ msg.records) :
    ∃ j, r.identity = (template j).identity := by
  rcases List.mem_append.mp hr with hr | hr
  · exact h.members msg hmsg r hr
  · rw [List.mem_singleton.mp hr]
    exact ⟨msg.source, h.sender msg hmsg⟩

omit [DecidableEq ι] in
theorem Authentic.seen {s : Gossip ι} (h : Authentic template s) {i : ι} {r : NodeInfo}
    (hr : r ∈ s.seenBy i) : ∃ j, r.identity = (template j).identity := by
  rcases List.mem_append.mp hr with hr | hr
  · exact h.table i r.id r (Table.mem_values_iff.mp hr)
  · obtain ⟨msg, hmsg, hr⟩ := List.mem_flatMap.mp hr
    exact h.record hmsg hr

theorem Stepped.meTemplate {s s' : Gossip ι} {l : Section ι} (h : s.Stepped l s') (i : ι) :
    (s'.nodes i).meTemplate = (s.nodes i).meTemplate := by
  have hset : ∀ (j : ι) (m : Membership), m.meTemplate = (s.nodes j).meTemplate →
      ((s.setNode j m).nodes i).meTemplate = (s.nodes i).meTemplate := by
    intro j m hm
    exact setNode_forall (P := fun i m => m.meTemplate = (s.nodes i).meTemplate) hm
      (fun _ => rfl) i
  cases h with
  | tick => rfl
  | snapshot j => rfl
  | post j reply hl hdraft hmembers => rfl
  | setBloomVersion j v | refuse j hmsg hhash | sweep j hnow => exact hset j _ rfl
  | deliver j hmsg hnow hhash => exact hset j _ (Membership.merge_meTemplate _ _ _)
  | @touch j entry now msg hmsg hnow =>
      apply hset j
      unfold acknowledge
      split <;> rfl

/-- The payloads in flight after a step: those before, and at most one more,
made of a snapshot and of records its node had seen. -/
theorem Stepped.sent {s s' : Gossip ι} {l : Section ι} (h : s.Stepped l s') {msg : Message ι}
    (hmsg : msg ∈ s'.sent) :
    msg ∈ s.sent ∨ (msg.source, msg.payload.sender) ∈ s.drafts ∧
      ∀ n ∈ msg.payload.members, n ∈ s.seenBy msg.source := by
  cases h with
  | post j reply hl hdraft hmembers =>
      rcases List.mem_append.mp hmsg with hmsg | hmsg
      · exact .inl hmsg
      · rw [List.mem_singleton.mp hmsg]
        exact .inr ⟨hdraft, hmembers⟩
  | _ => exact .inl hmsg

theorem Stepped.draft {s s' : Gossip ι} {l : Section ι} (h : s.Stepped l s') {i : ι}
    {r : NodeInfo} (hr : (i, r) ∈ s'.drafts) :
    (i, r) ∈ s.drafts ∨ l = .snapshot i ∧ r = (s.nodes i).meSnapshot s.clock := by
  cases h with
  | snapshot j =>
      rcases List.mem_append.mp hr with hr | hr
      · exact .inl hr
      · cases List.mem_singleton.mp hr
        exact .inr ⟨rfl, rfl⟩
  | post j reply hl hdraft hmembers => exact .inl (List.mem_of_mem_eraseIdx hr)
  | _ => exact .inl hr

theorem Stepped.merged {s s' : Gossip ι} {l : Section ι} (h : s.Stepped l s') {i : ι}
    {msg : Message ι} (hmsg : (i, msg) ∈ s'.merged) : (i, msg) ∈ s.merged ∨ msg ∈ s.sent := by
  cases h with
  | deliver j hget hnow hhash =>
      rcases List.mem_append.mp hmsg with hmsg | hmsg
      · exact .inl hmsg
      · cases List.mem_singleton.mp hmsg
        exact .inr (List.mem_of_getElem? hget)
  | touch j hget hnow => exact .inl (List.mem_of_mem_eraseIdx hmsg)
  | _ => exact .inl hmsg

theorem Stepped.sent_mono {s s' : Gossip ι} {l : Section ι} (h : s.Stepped l s')
    {msg : Message ι} (hmsg : msg ∈ s.sent) : msg ∈ s'.sent := by
  cases h with
  | post j reply hl hdraft hmembers => exact List.mem_append_left _ hmsg
  | _ => exact hmsg

theorem Authentic.step {s s' : Gossip ι} {l : Section ι} (h : Authentic template s)
    (hstep : s.Stepped l s') : Authentic template s' where
  node i := (hstep.meTemplate i).trans (h.node i)
  table i id r hr := by
    cases hstep.record hr with
    | kept hbefore hident hseen | touched hl hmsg hid hbefore hident hseen =>
        exact hident ▸ h.table i id _ hbefore
    | arrived hl hmsg hmem hid hhash => exact h.record (List.mem_of_getElem? hmsg) hmem
    | own hl hid hident hseen => exact ⟨i, hident.trans (congrArg _ (h.node i))⟩
  draft i r hr := by
    rcases hstep.draft hr with hr | ⟨-, rfl⟩
    · exact h.draft i r hr
    · rw [← h.node i]
      rfl
  sender msg hmsg := by
    rcases hstep.sent hmsg with hmsg | ⟨hdraft, -⟩
    · exact h.sender msg hmsg
    · exact h.draft _ _ hdraft
  members msg hmsg r hr := by
    rcases hstep.sent hmsg with hmsg | ⟨-, hseen⟩
    · exact h.members msg hmsg r hr
    · exact h.seen (hseen r hr)
  merged i msg hmsg := by
    rcases hstep.merged hmsg with hmsg | hmsg
    · exact hstep.sent_mono (h.merged i msg hmsg)
    · exact hstep.sent_mono hmsg

theorem authentic_run {G : Gossip ι → Section ι → Prop} {clock : Nat} {s : Gossip ι}
    (h : Run Gossip.step G (.init template clock) s) : Authentic template s :=
  h.inv (fun _ _ _ hauth _ hstep => hauth.step (stepped hstep)) (.init template clock)

/-! ### The node's own entry -/

/-- A node lists itself, alive and with its own identity. -/
def ListsItself (m : Membership) : Prop :=
  ∃ r, m.members.get? m.meId = some r ∧ r.state = .alive ∧ r.identity = m.meTemplate.identity

theorem ListsItself.merge {m : Membership} (h : ListsItself m) (now : Nat) (l : List NodeInfo) :
    ListsItself (m.merge now l) := by
  unfold ListsItself
  rw [Membership.merge_meId, Membership.merge_meTemplate]
  rcases Membership.merge_get?_me m now l with hkept | ⟨inc, hinc⟩
  · rw [hkept]
    exact h
  · exact ⟨_, hinc, rfl, rfl⟩

theorem ListsItself.sweep {m : Membership} (h : ListsItself m) (now : Nat) :
    ListsItself (m.sweep now) := by
  obtain ⟨r, hr, halive, hident⟩ := h
  refine ⟨r, ?_, halive, hident⟩
  have haged : Membership.aged m.meId now r = r := if_pos (id_of_get? hr)
  rw [Membership.sweep_get?]
  change (m.members.get? m.meId).map _ = some r
  rw [hr]
  exact congrArg some haged

theorem ListsItself.acknowledge {m : Membership} (h : ListsItself m) (now : Nat) (reply : Bool)
    (p : GossipPayload) : ListsItself (acknowledge m now reply p) := by
  obtain ⟨r, hr, halive, hident⟩ := h
  have htemplate : (Gossip.acknowledge m now reply p).meTemplate = m.meTemplate := by
    cases reply <;> rfl
  refine ⟨Membership.touched p.sender.id now r, ?_, ?_, ?_⟩
  · rw [Membership.meId, htemplate, acknowledge_members, Membership.touchPeer_get?]
    change (m.members.get? m.meId).map _ = _
    rw [hr]
    rfl
  · unfold Membership.touched
    split
    · rfl
    · exact halive
  · rw [htemplate, ← hident]
    unfold Membership.touched
    split <;> rfl

theorem Stepped.listsItself {s s' : Gossip ι} {l : Section ι} (h : s.Stepped l s')
    (hown : ∀ i, ListsItself (s.nodes i)) (i : ι) : ListsItself (s'.nodes i) := by
  have hset : ∀ (j : ι) (m : Membership), ListsItself m →
      ListsItself ((s.setNode j m).nodes i) := by
    intro j m hm
    exact setNode_forall (P := fun _ m => ListsItself m) hm hown i
  cases h with
  | tick => exact hown i
  | snapshot j => exact hown i
  | post j reply hl hdraft hmembers => exact hown i
  | setBloomVersion j v => exact hset j _ (hown j)
  | refuse j hmsg hhash => exact hset j _ (hown j)
  | sweep j hnow => exact hset j _ ((hown j).sweep _)
  | deliver j hmsg hnow hhash => exact hset j _ ((hown j).merge _ _)
  | touch j hmsg hnow => exact hset j _ ((hown j).acknowledge _ _ _)

/-- A table holds records of its own cluster only. -/
def OneCluster (s : Gossip ι) : Prop :=
  ∀ i id r, (s.nodes i).members.get? id = some r →
    r.clusterHash = (s.nodes i).meTemplate.clusterHash

theorem OneCluster.step {s s' : Gossip ι} {l : Section ι} (h : OneCluster s)
    (hstep : s.Stepped l s') : OneCluster s' := by
  intro i id r hr
  rw [hstep.meTemplate i]
  have hhash : ∀ {a b : NodeInfo}, a.identity = b.identity → a.clusterHash = b.clusterHash :=
    fun heq => congrArg (·.2.2) heq
  cases hstep.record hr with
  | kept hbefore hident hseen | touched hl hmsg hid hbefore hident hseen =>
      exact (hhash hident).trans (h i id _ hbefore)
  | arrived hl hmsg hmem hid hsame => exact hsame
  | own hl hid hident hseen => exact hhash hident

/-- What holds of every table, whoever gossips with whom. -/
structure SelfView (s : Gossip ι) : Prop where
  own : ∀ i, ListsItself (s.nodes i)
  hash : OneCluster s

omit [DecidableEq ι] in
theorem SelfView.init (halive : ∀ i, (template i).state = .alive) (clock : Nat) :
    SelfView (.init template clock) where
  own i := ⟨template i, by simp [Gossip.init, Membership.new, Membership.meId, Table.get?_insert],
    halive i, rfl⟩
  hash i id r h := by
    simp only [Gossip.init, Membership.new, Table.get?_insert, Table.get?_empty] at h
    split at h
    · cases h
      rfl
    · cases h

/-- Isolation and self-view: whatever payloads are exchanged, a table holds
records of its own cluster, each of some node of that cluster and none of a node
of another one; the own record is there and alive, and is not among the peers. -/
theorem clusters_isolated (template : ι → NodeInfo) (halive : ∀ i, (template i).state = .alive)
    (clock : Nat) (s : Gossip ι)
    (hrun : Run Gossip.step (fun _ _ => True) (.init template clock) s) (i : ι) :
    (∀ r ∈ (s.nodes i).membersAll, r.clusterHash = (template i).clusterHash) ∧
      (∃ r, (s.nodes i).members.get? (template i).id = some r ∧ r.state = .alive ∧
        r.identity = (template i).identity) ∧
      (∀ r ∈ (s.nodes i).membersAlive, r.id ≠ (template i).id) ∧
      ∀ r ∈ (s.nodes i).membersAll,
        (∃ j, r.identity = (template j).identity ∧
          (template j).clusterHash = (template i).clusterHash) ∧
        ∀ j, (template j).clusterHash ≠ (template i).clusterHash →
          r.identity ≠ (template j).identity := by
  have hauth := authentic_run hrun
  have hview : SelfView s := hrun.inv
    (fun _ _ _ hinv _ hstep =>
      ⟨(stepped hstep).listsItself hinv.own, hinv.hash.step (stepped hstep)⟩)
    (.init halive clock)
  have hhash : ∀ r ∈ (s.nodes i).membersAll, r.clusterHash = (template i).clusterHash := by
    intro r hr
    rw [← hauth.node i]
    exact hview.hash i r.id r (Table.mem_values_iff.mp hr)
  refine ⟨hhash, ?_, ?_, ?_⟩
  · have hown := hview.own i
    unfold ListsItself Membership.meId at hown
    rwa [hauth.node i] at hown
  · intro r hr
    have hfilter := (List.mem_filter.mp hr).2
    simp only [Membership.meId, hauth.node i, decide_eq_true_eq] at hfilter
    exact hfilter.2.1
  · intro r hr
    obtain ⟨j, hj⟩ := hauth.table i r.id r (Table.mem_values_iff.mp hr)
    have hsame : ∀ k, r.identity = (template k).identity →
        (template k).clusterHash = (template i).clusterHash := by
      intro k hk
      exact (congrArg (·.2.2) hk).symm.trans (hhash r hr)
    exact ⟨⟨j, hj, hsame j hj⟩, fun k hne hk => hne (hsame k hk)⟩

/-- Two nodes of one cluster and a third of another. -/
def sampleTemplate : Fin 3 → NodeInfo
  | 0 => samplePeer "a" "h"
  | 1 => samplePeer "b" "h"
  | 2 => samplePeer "c" "other"

/-- The third node's record reaches the first one through the second. -/
def forwardedRun : List (Section (Fin 3)) :=
  [.snapshot 2, .send 2 0 false [samplePeer "c" "other"], .snapshot 1,
    .forward 1 0 false [samplePeer "c" "other"], .deliver 0 1 0, .touch 0 0 0]

theorem clusters_isolated_from_forwarded :
    ∃ s, Run Gossip.step (fun _ _ => True) (.init sampleTemplate 0) s ∧
      (s.nodes 0).membersAlive.map (·.id) = ["b"] ∧
      ∀ r ∈ (s.nodes 0).membersAll, r.clusterHash = "h" := by
  obtain ⟨s, hrun, hp⟩ := run_of_labels Gossip.step (.init sampleTemplate 0)
    forwardedRun (fun s => (s.nodes 0).membersAlive.map (·.id) = ["b"]) (by decide +kernel)
  exact ⟨s, hrun, of_decide_eq_true hp,
    (clusters_isolated sampleTemplate (by decide) 0 s hrun 0).1⟩

end BlobCache.Cluster.Gossip
