import BlobCache.Node.Lengths
import BlobCache.Node.OneKey

/-!
What a follower gets. Nobody waits for a slot that cannot deliver any more: a
slot in the map has an owner that still runs, and one that has left it has
sent its message or lost its sender. What is delivered is the chunk, unless
the slot was closed by somebody who had a reason of their own to fail.
-/

namespace BlobCache.Node

open Cache Conc

variable {cfg : NodeConfig}

theorem exec_recv {t i : Nat} {timed : Bool} {s : State} {r : Received}
    (hr : s.fetch.received i = some r) :
    exec cfg t (.fetch (.recv i timed)) Choice.benign s = some (r, s) := by
  simp only [exec, FetchState.exec, Choice.benign, Bool.and_false, hr]
  rfl

/-- A slot in the map is open, and the leader that created it is still running
with its guard armed. A slot that has left the map has sent one message or lost
its sender, and whoever waits for it gets just that with the next step. -/
theorem followers_are_answered {c : Config (machine cfg)}
    (hrun : Config.Reach (anyEnv cfg).allowed (.init (State.new cfg)) c) :
    (∀ k i, c.state.fetch.inflight.get? k = some i →
      ∃ slot th p, c.state.fetch.slots[i]? = some slot ∧ slot.key = k ∧ slot.sent = [] ∧
        c.state.fetch.guards.get? slot.owner = some k ∧
        c.threads[slot.owner]? = some th ∧ th.status = .running p) ∧
    (∀ (i : Nat) (slot : Slot), c.state.fetch.slots[i]? = some slot →
      c.state.fetch.inflight.get? slot.key ≠ some i →
      slot.sent.length = 1 ∨ slot.sent = [] ∧ slot.closed = some .cleared) ∧
    ∀ (t : Nat) (th : Thread effect) (i : Nat) (timed : Bool) (kont : Received → NodeM Val),
      c.threads[t]? = some th → th.status = .running (.op (.fetch (.recv i timed)) kont) →
      ∃ slot, c.state.fetch.slots[i]? = some slot ∧ t ∈ slot.followers ∧
        (c.state.fetch.inflight.get? slot.key ≠ some i →
          ∃ r c', (∀ msg, slot.sent = [msg] → r = .message msg) ∧ (slot.sent = [] → r = .closed) ∧
            c.step (.run t Choice.benign) =
              some (.op t (.fetch (.recv i timed)) Choice.benign, c') ∧
            c'.threads[t]? = some { th with status := .running (kont r) }) := by
  obtain ⟨ws, hA, hC⟩ := core_reach (Env.allowed_respects fun _ _ h => h)
    (Settled.new (anyEnv cfg)) hrun
  have hgone {i : Nat} {slot : Slot} (hi : c.state.fetch.slots[i]? = some slot)
      (hout : c.state.fetch.inflight.get? slot.key ≠ some i) :
      SlotClosed (anyEnv cfg) (locsOf ws) slot :=
    (hC.slots.gone i slot hi).resolve_left hout
  refine ⟨?_, ?_, ?_⟩
  · intro k i hk
    obtain ⟨slot, hi, hkey, -, hsent, l, hl, hlead⟩ := hC.slots.present k i hk
    obtain ⟨th, p, hth, hp⟩ := running_of_lead hA hl hlead
    refine ⟨slot, th, p, hi, hkey, hsent, ?_, hth, hp⟩
    rw [hC.slots.guard, hl]
    exact hlead
  · intro i slot hi hout
    exact (hgone hi hout).sent_le
  · intro t th i timed kont hth hst
    obtain ⟨v, hv, hok⟩ := hA.thread t th hth
    have hsat := hok.status
    rw [hst] at hsat
    obtain ⟨⟨⟨key, hrx⟩, -⟩, -⟩ := hsat
    obtain ⟨slot, hi, -, hfollows⟩ := hC.slots.waits t v.loc key i (locsOf_eq hv) hrx
    refine ⟨slot, hi, hfollows, fun hout => ?_⟩
    obtain ⟨r, hr, hmsg, hclosed⟩ := (hgone hi hout).received hi
    exact ⟨r, _, hmsg, hclosed, Config.step_of_exec hth hst (exec_recv hr),
      List.getElem?_set_self (Config.lt_of_thread hth)⟩

theorem followers_are_answered_by_running_leader :
    ∃ c : Config (machine sampleConfig),
      Config.Reach (anyEnv sampleConfig).allowed (.init (State.new sampleConfig)) c ∧
      ∃ slot th p, c.state.fetch.slots[0]? = some slot ∧ 2 ∈ slot.followers ∧
        c.threads[slot.owner]? = some th ∧ th.status = .running p := by
  have hstart (j : effect.Job) (hj : decide (j = sampleFetch) = true) :
      (anyEnv sampleConfig).jobOk j := by
    rw [of_decide_eq_true hj]
    exact ⟨trivial, trivial⟩
  obtain ⟨c, hrun, hc⟩ := Config.reach_of_replay
    (gate_allowed (fun (j : effect.Job) => decide (j = sampleFetch)) (fun _ _ => true) hstart
      fun _ _ _ => trivial)
    (.init (State.new sampleConfig)) followTurns
    (fun c => decide (c.state.fetch.inflight.get? (sampleKey 0) = some 0) &&
      c.state.fetch.slots[0]?.any fun (slot : Slot) => decide (2 ∈ slot.followers))
    (by decide +kernel)
  simp only [Bool.and_eq_true, decide_eq_true_eq] at hc
  obtain ⟨hpresent, hfollows⟩ := hc
  obtain ⟨slot, th, p, hslot, -, -, -, hth, hp⟩ := (followers_are_answered hrun).1 _ 0 hpresent
  rw [hslot] at hfollows
  exact ⟨c, hrun, slot, th, p, hslot, of_decide_eq_true hfollows, hth, hp⟩

/-- The wait of thread `t` does not run out. -/
def waitsOut (t : Nat) : Event (machine cfg) → Prop
  | .op u (.fetch (.recv _ _)) c => u = t → c.fetch.timeout = false
  | _ => True

section

variable {env : Env cfg}

/-- Thread `t` has heard something or still waits. -/
def Patient (t : Nat) (ws : Views (discipline env)) : Prop :=
  ∀ u v, ws u = some v → u = t → ∀ k i, Loc.heard v.loc ≠ some (k, i, .elapsed)

theorem received_ne_elapsed {f : FetchState} {i : Nat} : f.received i ≠ some .elapsed := by
  unfold FetchState.received
  split
  · exact nofun
  · split
    · exact nofun
    · split <;> exact nofun

theorem patient_keeps {t : Nat} {G : State → Event (machine cfg) → Prop}
    {I : State → Views (discipline env) → Prop} (hG : ∀ s e, G s e → waitsOut t e) :
    Keeps (discipline env) G I fun _ ws => Patient t ws where
  start _ h _ _ _ _ := Views.forall_update h fun _ _ _ hheard => Option.some_ne_none _ hheard.symm
  op {s ws u v o c r s'} _ h hv _ hg hex _ := by
    change exec cfg u o c s = some (r, s') at hex
    refine Views.forall_update h ?_
    rintro rfl
    have hself := h u v hv rfl
    cases o with
    | disk o =>
        obtain ⟨file, hnext⟩ := diskNext_eq v.loc o r
        change ∀ k i, Loc.heard (diskNext v.loc o r) ≠ _
        rw [hnext]
        exact hself
    | index o =>
        obtain ⟨snap, pushed, noted, hnext⟩ := indexNext_eq v.loc o r
        change ∀ k i, Loc.heard (indexNext v.loc o r) ≠ _
        rw [hnext]
        exact hself
    | snapshotKeys => exact hself
    | fetch o =>
        cases o with
        | recv i timed =>
            intro k j hheard
            obtain ⟨x, -, hx⟩ := Option.map_eq_some_iff.mp hheard
            have hr : r = .elapsed := congrArg (fun y => y.2.2) hx
            subst hr
            have htimeout : c.fetch.timeout = false := hG _ _ hg rfl
            obtain ⟨hf, -⟩ := exec_fetch hex
            simp only [FetchState.exec, htimeout, Bool.and_false] at hf
            obtain ⟨r', hr', heq⟩ := Option.map_eq_some_iff.mp hf
            rw [show r' = .elapsed from congrArg Prod.fst heq] at hr'
            exact received_ne_elapsed hr'
        | inflightEntry key => cases r <;> exact hself
        | _ => exact hself
  spawn {s ws u v w j} _ h hv _ _ _ _ := by
    have hself := h u v hv
    exact Views.forall_update (Views.forall_update h hself) fun _ _ _ hheard =>
      Option.some_ne_none _ hheard.symm
  join {s ws u v hd w x} _ h hv _ _ _ := by
    have hself := h u v hv
    exact Views.forall_update h hself
  lost {s ws u v hd w l} _ h hv _ _ _ := by
    have hself := h u v hv
    exact Views.forall_update h hself
  cancel {s ws u v p} _ h hv _ _ := by
    have hself := h u v hv
    exact Views.forall_update h hself

end

/-- What a request for the chunk `data` should return. -/
def Job.answer (data : Bytes) : Job → Option Val
  | .fetchChunk .. | .fetchChunkOriginOnly .. => some (.fetched (.ok data))
  | .fetchChunkRange _ _ _ subOffset subLen _ =>
      if subOffset + subLen ≤ data.length then
        some (.fetched (.ok (slice data subOffset (subOffset + subLen))))
      else none
  | .servePeerChunk .. => some (.served (some data))
  | _ => none

/-- The slot was cleared, or closed by a leader that was cancelled, or by one
that asked for another length than the chunk has. -/
def ClosedByOther (data : Bytes) (c : Config (machine cfg)) (slot : Slot) : Prop :=
  match slot.closed with
  | some .cleared => True
  | some (.cancelled _) => True
  | some (.finished u) => ∃ j n, c.job u = some j ∧ Job.expectedLen j = some n ∧ n ≠ data.length
  | _ => False

/-- Thread `t` followed a slot that was closed so. -/
def FollowedOther (k : ChunkKey) (data : Bytes) (c : Config (machine cfg)) (t : Nat) : Prop :=
  ∃ (i : Nat) (slot : Slot), c.state.fetch.slots[i]? = some slot ∧ slot.key = k ∧
    t ∈ slot.followers ∧ ClosedByOther data c slot

section

variable {k : ChunkKey} {data : Bytes} {c : Config (machine cfg)} {t : Nat}
  {ws : Views (discipline (keyEnv cfg k (· = data) True))}

/-- A request that has waited long enough fails only as a follower. -/
theorem followed_of_blame (hA : Agree (discipline (keyEnv cfg k (· = data) True)) c.threads ws)
    (hB : Base _ c.state ws) (hP : Patient t ws) (hmount : cfg.mounts.get? k.mount ≠ none)
    {l : Loc} (hl : locsOf ws t = some l)
    (hblame : (keyEnv cfg k (· = data) True).blame l k data.length) :
    FollowedOther k data c t := by
  have hright (d : Bytes) (hd : d = data) : d.length = data.length := by rw [hd]
  rcases hblame with horigin | hwrong | hlost | ⟨i, r, hheard, hfailed⟩
  · exact horigin.elim
  · exact absurd hwrong (wrongLen_false hright)
  · obtain ⟨v, hv, rfl⟩ := view_of_locsOf hl
    rw [(hB.joined t v hv).lost] at hlost
    cases hlost
  · obtain ⟨slot, hi, rfl, hfollows, hreceived⟩ := hB.core.slots.heard t l k i r hl hheard
    refine ⟨i, slot, hi, rfl, hfollows, ?_⟩
    have hne : r ≠ .elapsed := by
      rintro rfl
      obtain ⟨v, hv, rfl⟩ := view_of_locsOf hl
      exact hP t v hv rfl _ _ hheard
    have hr := hreceived hne
    have hclosed : SlotClosed (keyEnv cfg slot.key (· = data) True) (locsOf ws) slot := by
      rcases hB.core.slots.gone i slot hi with hin | hclosed
      · obtain ⟨slot', hi', -, hopen, -⟩ := hB.core.slots.present _ _ hin
        rw [hi] at hi'
        cases hi'
        exact absurd hopen (hB.core.slots.closed_of_received hi hr)
      · exact hclosed
    unfold SlotClosed at hclosed
    unfold ClosedByOther
    cases hcause : slot.closed with
    | none => simp only [hcause] at hclosed
    | some cause =>
        simp only [hcause] at hclosed
        cases cause with
        | cleared => trivial
        | cancelled u => trivial
        | unknownMount u => exact absurd hclosed.2 hmount
        | finished u =>
            obtain ⟨msg, lu, hsent, hu, hmsg⟩ := hclosed
            cases msg with
            | ok d =>
                have hok : r = .message (.ok d) := by
                  simp only [FetchState.received, hi, hsent] at hr
                  exact (Option.some.inj hr).symm
                rw [hok] at hfailed
                cases hfailed
            | error e =>
                rcases hmsg with horigin | ⟨n, hn, hwrong⟩
                · exact horigin.elim
                · obtain ⟨v, hv, rfl⟩ := view_of_locsOf hu
                  obtain ⟨th, hth, hok⟩ := hA.of_view hv
                  refine ⟨v.job, n, by simp [Config.job, hth, hok.job], ?_, ?_⟩
                  · rw [← (hB.core.job u v hv).1]
                    exact hn
                  · rintro rfl
                    exact wrongLen_false hright hwrong

end

/-- Every request that is neither cancelled nor timed out and that asks for the
length the chunk has gets the chunk, or it followed a slot that was cleared or
that somebody with a failure of their own closed. -/
theorem requests_get_chunk {k : ChunkKey} {data : Bytes} {s0 : State} {c : Config (machine cfg)}
    {t : Nat} {j : Job} {v w : Val} (h0 : Settled (keyEnv cfg k (· = data) True) s0)
    (hu : s0.Unused) (hmount : cfg.mounts.get? k.mount ≠ none)
    (hrun : Config.Reach (fun s e => (keyEnv cfg k (· = data) True).allowed s e ∧ waitsOut t e)
      (.init s0) c)
    (hjob : c.job t = some j) (hasks : j.asks k data.length) (hanswer : j.answer data = some w)
    (hdone : c.result t = some v) : v = w ∨ FollowedOther k data c t := by
  have hresp : Respects (keyEnv cfg k (· = data) True) fun s e =>
      (keyEnv cfg k (· = data) True).allowed s e ∧ waitsOut t e :=
    Env.allowed_respects fun _ _ h => h.1
  obtain ⟨ws, hA, hB, hP⟩ := ((base_sound hresp).and (patient_keeps fun _ _ h => h.2)).reach
    ⟨h0.base hu, fun u v hv => by cases hv⟩ hrun
  obtain ⟨l, hl, -, -, hval⟩ := value_of_done hA hB.core hjob hdone
  have hblame := followed_of_blame hA hB hP hmount hl
  cases j with
  | fetchChunk mount blob offset n
  | fetchChunkOriginOnly mount blob offset n =>
      obtain ⟨rfl, rfl⟩ := hasks
      cases hanswer
      obtain ⟨r, rfl, hr⟩ := hval
      cases r with
      | ok d =>
          rw [hr.1 rfl]
          exact .inl rfl
      | error e => exact .inr (hblame hr)
  | fetchChunkRange mount blob offset subOffset subLen n =>
      obtain ⟨rfl, rfl⟩ := hasks
      simp only [Job.answer] at hanswer
      split at hanswer
      · rename_i hin
        cases hanswer
        obtain ⟨r, rfl, hr⟩ := hval
        cases r with
        | ok b =>
            refine .inl ?_
            rcases hr with ⟨rfl, rfl⟩ | ⟨d, hd, -, rfl⟩
            · simp [slice]
            · rw [hd rfl]
        | error e =>
            rcases hr with hr | ⟨d, hd, -, hout⟩
            · exact .inr (hblame hr)
            · rw [hd rfl] at hout
              omega
      · cases hanswer
  | servePeerChunk key n waitMs =>
      obtain ⟨rfl, rfl⟩ := hasks
      cases hanswer
      obtain ⟨r, rfl, hr⟩ := hval
      cases r with
      | some d =>
          rw [hr.1 rfl]
          exact .inl rfl
      | none =>
          rcases hr with hr | hr
          · exact .inr (hblame hr)
          · exact absurd hr hmount
  | _ => cases hanswer

/-- Requests for the sample chunk, none of which times out, checked. -/
def followGate (s : State) (e : Event (machine sampleConfig)) : Bool :=
  gate (fun (j : effect.Job) => decide (j = sampleFetch)) (fun _ d => decide (d = [1, 2, 3, 4]))
    s e &&
    match e with
    | .op _ (.fetch (.recv _ _)) c => !c.fetch.timeout
    | _ => true

theorem allowed_of_followGate (s : State) (e : Event (machine sampleConfig))
    (h : followGate s e = true) :
    (keyEnv sampleConfig (sampleKey 0) (· = [1, 2, 3, 4]) True).allowed s e ∧ waitsOut 2 e := by
  obtain ⟨hgate, hrest⟩ := Bool.and_eq_true_iff.mp h
  constructor
  · refine gate_allowed _ _ ?_ ?_ s e hgate
    · intro (j : effect.Job) hj
      obtain rfl : j = sampleFetch := of_decide_eq_true hj
      exact ⟨trivial, rfl⟩
    · intro k d hd _
      exact of_decide_eq_true hd
  · cases e with
    | op u o c =>
        cases o with
        | fetch o =>
            cases o with
            | recv i timed =>
                intro _
                simpa using hrest
            | _ => trivial
        | _ => trivial
    | _ => trivial

theorem requests_get_chunk_as_follower :
    ∃ (c : Config (machine sampleConfig)) (v : Val), c.result 2 = some v ∧
      (v = .fetched (.ok [1, 2, 3, 4]) ∨ FollowedOther (sampleKey 0) [1, 2, 3, 4] c 2) := by
  obtain ⟨c, hrun, hc⟩ := Config.reach_of_replay allowed_of_followGate
    (.init (State.new sampleConfig))
    (followTurns ++ [originTurn 0 [1, 2, 3, 4]] ++ turns 0 5 ++ turns 2 2)
    (fun c => decide (c.job 2 = some sampleFetch) && (c.result 2).isSome) (by decide +kernel)
  simp only [Bool.and_eq_true, decide_eq_true_eq] at hc
  obtain ⟨hjob, hdone⟩ := hc
  obtain ⟨v, hdone⟩ := Option.isSome_iff_exists.mp hdone
  exact ⟨c, v, hdone, requests_get_chunk (.new _) (.new _) (by decide) hrun hjob ⟨rfl, rfl⟩ rfl
    hdone⟩

/-- The leader's future is dropped while the origin is being asked. -/
theorem follower_of_cancelled_leader_fails :
    ∃ c : Config (machine sampleConfig),
      Config.Reach (fun s e =>
        (keyEnv sampleConfig (sampleKey 0) (· = [1, 2, 3, 4]) True).allowed s e ∧ waitsOut 2 e)
        (.init (State.new sampleConfig)) c ∧
      c.job 2 = some sampleFetch ∧
      c.result 2 = some (.fetched (.error (.other "leader cancelled"))) := by
  obtain ⟨c, hrun, hc⟩ := Config.reach_of_replay allowed_of_followGate
    (.init (State.new sampleConfig)) (followTurns ++ [.cancel 0] ++ turns 2 2)
    (fun c => decide (c.job 2 = some sampleFetch) &&
      decide (c.result 2 = some (.fetched (.error (.other "leader cancelled")))))
    (by decide +kernel)
  simp only [Bool.and_eq_true, decide_eq_true_eq] at hc
  exact ⟨c, hrun, hc⟩

end BlobCache.Node
