import BlobCache.Conc.Ends
import BlobCache.Hydrate.Coordinator
import BlobCache.Hydrate.Held

/-!
The books of a hydration. A worker starts one task for each chunk and counts how
they ended; its list of errors is bounded, so that it may be shorter than the
number of failures. What is shown here is that it is never empty when something
is missing, whatever the tasks return and however many of them are lost, and that
the coordinator does not lose it either.
-/

namespace BlobCache.Hydrate

open Conc Node

/-- How the task of a chunk ended: with a value, or it was lost. -/
abbrev TaskOutcome := Option (Node.Val ⊕ Val)

/-- The task returned its chunk. -/
def fetchedOk : TaskOutcome → Bool
  | some (.inl (.fetched (.ok _))) => true
  | _ => false

/-! ## One task after the other -/

section Collecting

variable {resp : (o : (Node.effect.extend effect).Op) → (Node.effect.extend effect).Resp o → Prop}
  {hs : List (Handle (Node.effect.extend effect))}
  {js : List (Handle (Node.effect.extend effect) × TaskOutcome)}

theorem pushError_length {errors : List String} (hle : errors.length ≤ 32) (e : String) :
    (pushError errors e).length = min 32 (errors.length + 1) := by
  unfold pushError
  split
  · rw [List.length_append, List.length_singleton]
    omega
  · omega

/-- What one task adds to the books. -/
theorem Collected.add_cases (acc : Collected) (report : String → String) (lost : String)
    (r : TaskOutcome) :
    (fetchedOk r = true ∧ (acc.add report lost r).fetched = acc.fetched + 1 ∧
        (acc.add report lost r).errors = acc.errors) ∨
      (fetchedOk r = false ∧ (acc.add report lost r).fetched = acc.fetched ∧
        ∃ e, (acc.add report lost r).errors = pushError acc.errors e) := by
  cases hok : fetchedOk r with
  | true =>
      unfold fetchedOk at hok
      split at hok
      · exact .inl ⟨rfl, rfl, rfl⟩
      · cases hok
  | false =>
      refine .inr ⟨rfl, ?_⟩
      unfold Collected.add
      split
      · cases hok
      · exact ⟨rfl, _, rfl⟩
      · exact ⟨rfl, _, rfl⟩

theorem spawnTasks_ends {tasks : List Task}
    {out : List (Handle (Node.effect.extend effect) × (String → String))}
    (h : (spawnTasks tasks).Ends resp hs js out) :
    js = [] ∧ hs.map Handle.job = tasks.map (fun task => .inl task.job) ∧
      out.map Prod.fst = hs := by
  induction tasks generalizing hs js out with
  | nil =>
      obtain ⟨rfl, rfl, rfl⟩ := h
      exact ⟨rfl, rfl, rfl⟩
  | cons task tasks ih =>
      obtain ⟨t, hs', rfl, h⟩ := h
      change (spawnTasks tasks >>= _).Ends resp _ _ _ at h
      obtain ⟨rest, hs₁, _, _, _, rfl, rfl, hrest, rfl, rfl, rfl⟩ := h.of_bind
      obtain ⟨rfl, hjobs, hfst⟩ := ih hrest
      have hend : hs₁ ++ [] = hs₁ := List.append_nil hs₁
      rw [hend]
      exact ⟨rfl, congrArg (List.cons _) hjobs, congrArg (List.cons _) hfst⟩

theorem awaitTasks_ends {lost : String} {acc got : Collected}
    {handles : List (Handle (Node.effect.extend effect) × (String → String))}
    (hle : acc.errors.length ≤ 32) (h : (awaitTasks lost acc handles).Ends resp hs js got) :
    hs = [] ∧ js.map Prod.fst = handles.map Prod.fst ∧
      got.fetched = acc.fetched + (js.map Prod.snd).countP fetchedOk ∧
      got.errors.length =
        min 32 (acc.errors.length + (js.map Prod.snd).countP fun r => !fetchedOk r) := by
  induction handles generalizing acc hs js with
  | nil =>
      obtain ⟨rfl, rfl, rfl⟩ := h
      exact ⟨rfl, rfl, rfl, (Nat.min_eq_right hle).symm⟩
  | cons hr handles ih =>
      obtain ⟨hd, report⟩ := hr
      obtain ⟨v, js', rfl, h⟩ : ∃ (v : TaskOutcome)
          (js' : List (Handle (Node.effect.extend effect) × TaskOutcome)), js = (hd, v) :: js' ∧
          (awaitTasks lost (acc.add report lost v) handles).Ends resp hs js' got := h
      have hstep := acc.add_cases report lost v
      have hshort : (acc.add report lost v).errors.length ≤ 32 := by
        rcases hstep with ⟨-, -, herr⟩ | ⟨-, -, e, herr⟩
        · rw [herr]
          exact hle
        · rw [herr, pushError_length hle]
          omega
      obtain ⟨rfl, hfst, hfetched, herrors⟩ := ih hshort h
      refine ⟨rfl, congrArg (List.cons hd) hfst, ?_, ?_⟩
      · rw [hfetched, List.map_cons, List.countP_cons]
        rcases hstep with ⟨hok, hadd, -⟩ | ⟨hok, hadd, -⟩
        · rw [hadd, if_pos hok]
          omega
        · rw [hadd, if_neg (by simp [hok])]
          omega
      · rw [herrors, List.map_cons, List.countP_cons]
        rcases hstep with ⟨hok, -, herr⟩ | ⟨hok, -, e, herr⟩
        · rw [herr, if_neg (by simp [hok])]
          omega
        · rw [herr, pushError_length hle, if_pos (by simp [hok])]
          omega

/-- The books after all tasks. -/
structure Counted (outcomes : List TaskOutcome) (got : Collected) : Prop where
  fetched : got.fetched = outcomes.countP fetchedOk
  errors : got.errors.length = min 32 (outcomes.countP fun r => !fetchedOk r)

theorem collect_ends {lost : String} {tasks : List Task} {got : Collected}
    (h : (collect lost tasks).Ends resp hs js got) :
    hs.map Handle.job = tasks.map (fun task => .inl task.job) ∧ js.map Prod.fst = hs ∧
      Counted (js.map Prod.snd) got := by
  obtain ⟨handles, _, _, _, _, rfl, rfl, hspawn, hawait⟩ := h.of_bind
  obtain ⟨rfl, hjobs, hfst⟩ := spawnTasks_ends hspawn
  obtain ⟨rfl, hjoined, hfetched, herrors⟩ := awaitTasks_ends (Nat.zero_le _) hawait
  rw [List.append_nil]
  refine ⟨hjobs, hjoined.trans hfst, ?_, ?_⟩
  · exact hfetched.trans (Nat.zero_add _)
  · exact herrors.trans (congrArg (min 32) (Nat.zero_add _))

/-- Every task is in the books once. -/
theorem Counted.failures {outcomes : List TaskOutcome} {got : Collected}
    (h : Counted outcomes got) :
    got.fetched + (outcomes.countP fun r => !fetchedOk r) = outcomes.length := by
  rw [h.fetched]
  have hsum := List.length_eq_countP_add_countP fetchedOk (l := outcomes)
  simpa using hsum.symm

/-- An empty list of errors says that nothing is missing. -/
theorem Counted.errors_ne_nil {outcomes : List TaskOutcome} {got : Collected}
    (h : Counted outcomes got) (hmissing : got.fetched < outcomes.length) : got.errors ≠ [] := by
  intro hnil
  have hlen := h.errors
  have hsum := h.failures
  rw [hnil, List.length_nil] at hlen
  omega

end Collecting

/-! ## The workers -/

def Val.fetched : Val → Nat
  | .shard resp => resp.fetched
  | .broadcastShard resp => resp.fetched
  | .ringStep resp => resp.fetched

/-- The tasks that a worker starts. -/
def Job.tasks (cfg : NodeConfig) (mount : MountConfig) : Job → List Task
  | .runShard req => req.chunks.map (shardTask mount)
  | .runBroadcastShard req =>
      (broadcastPulls cfg.base64Decode req).map (broadcastTask mount)
  | .runRingStep req =>
      match prevWorkerAddr cfg req with
      | none => []
      | some workerAddr => req.chunks.map (ringTask mount req workerAddr)

/-- The failures of `assigned` chunks, of which `reported` are named one by one and the
rest is counted in one entry. -/
def LossReported (assigned : Nat) (outcomes : List TaskOutcome)
    (resp : BroadcastShardResponse) : Prop :=
  ∃ reported : List String,
    let failures := outcomes.countP fun r => !fetchedOk r
    let fetched := resp.fetched
    let n := reported.length
    n = min 32 failures ∧
      if n < failures then
        ∃ lost, lost + n + fetched = assigned ∧ resp.errors = reported ++ [
          s!"silent loss: assigned={assigned} fetched={fetched} reported_errors={n} lost={lost}"]
      else resp.errors = reported

/-- What a response says about the outcomes of its tasks. -/
structure Booked (j : Job) (outcomes : List TaskOutcome) (v : Val) : Prop where
  fetched : v.fetched = outcomes.countP fetchedOk
  reported : v.fetched < j.chunks.length → v.errors ≠ []
  loss : ∀ req resp, j = .runBroadcastShard req → v = .broadcastShard resp →
    assigned req.sources ≤ u64Max → LossReported (assigned req.sources) outcomes resp

theorem lossReported_of_counted {a : Nat} {outcomes : List TaskOutcome} {got : Collected}
    (h : Counted outcomes got) (hlen : outcomes.length = a) (ha : a ≤ u64Max)
    (resp : BroadcastShardResponse) (hfetched : resp.fetched = got.fetched)
    (herrors : resp.errors = reportLoss a got.fetched got.errors) :
    LossReported a outcomes resp := by
  have hsum := h.failures
  have hshort := h.errors
  have hsat : saturatingAdd got.fetched got.errors.length =
      got.fetched + got.errors.length := by
    rw [saturatingAdd]
    omega
  refine ⟨got.errors, hshort, ?_⟩
  simp only [reportLoss, hsat] at herrors
  rw [hfetched]
  split
  · rename_i hmore
    rw [if_pos (by omega)] at herrors
    exact ⟨a - (got.fetched + got.errors.length), by omega, herrors⟩
  · rename_i hall
    rw [if_neg (by omega)] at herrors
    exact herrors

section Workers

variable {resp : (o : (Node.effect.extend effect).Op) → (Node.effect.extend effect).Resp o → Prop}
  {hs : List (Handle (Node.effect.extend effect))}
  {js : List (Handle (Node.effect.extend effect) × TaskOutcome)} {cfg : NodeConfig}
  {mount : MountConfig}

/-- The worker started its tasks and awaited each of them, and its response is about how
they ended. -/
def Balanced (cfg : NodeConfig) (mount : MountConfig) (j : Job)
    (hs : List (Handle (Node.effect.extend effect)))
    (js : List (Handle (Node.effect.extend effect) × TaskOutcome)) (v : Val) : Prop :=
  hs.map Handle.job = (j.tasks cfg mount).map (fun task => .inl task.job) ∧
    js.map Prod.fst = hs ∧ Booked j (js.map Prod.snd) v

theorem outcomes_length {tasks : List Task}
    (hjobs : hs.map Handle.job = tasks.map fun task => .inl task.job)
    (hjoined : js.map Prod.fst = hs) : (js.map Prod.snd).length = tasks.length := by
  have hlen : (hs.map Handle.job).length = tasks.length :=
    (congrArg List.length hjobs).trans (List.length_map _)
  rw [List.length_map, ← hjoined, List.length_map] at hlen
  rw [List.length_map]
  exact hlen

theorem runShard_ends {req : ShardRequest} {r : ShardResponse}
    (hmount : cfg.mounts.get? req.mount = some mount)
    (h : (runShard cfg req).Ends resp hs js r) :
    Balanced cfg mount (.runShard req) hs js (.shard r) := by
  unfold runShard at h
  rw [hmount] at h
  obtain ⟨got, hs₁, _, _, _, rfl, rfl, hcollect, h⟩ := h.of_bind
  obtain ⟨_, -, failures, -, rfl, rfl, rfl⟩ := h
  obtain ⟨hjobs, hjoined, hcounted⟩ := collect_ends hcollect
  have hlen := outcomes_length hjobs hjoined
  rw [List.append_nil, List.append_nil]
  refine ⟨hjobs, hjoined, hcounted.fetched, ?_, nofun⟩
  intro hmissing hnil
  refine hcounted.errors_ne_nil ?_ (pushErrors_eq_nil hnil).2
  rw [hlen, List.length_map]
  exact hmissing

theorem broadcastPulls_length (req : BroadcastShardRequest) :
    (broadcastPulls cfg.base64Decode req).length = assigned req.sources := by
  rw [(broadcastPulls_perm cfg.base64Decode req).length_eq, assigned_eq_length,
    List.length_flatMap, List.length_flatMap]
  simp only [pullsOf, List.length_map]

theorem runBroadcastShard_ends {req : BroadcastShardRequest} {r : BroadcastShardResponse}
    (hmount : cfg.mounts.get? req.mount = some mount)
    (h : (runBroadcastShard cfg req).Ends resp hs js r) :
    Balanced cfg mount (.runBroadcastShard req) hs js (.broadcastShard r) := by
  unfold runBroadcastShard at h
  rw [hmount] at h
  obtain ⟨got, hs₁, _, _, _, rfl, rfl, hcollect, h⟩ := h.of_bind
  obtain ⟨_, -, rfl, rfl, rfl⟩ := h
  obtain ⟨hjobs, hjoined, hcounted⟩ := collect_ends hcollect
  have hlen := outcomes_length hjobs hjoined
  rw [List.length_map, broadcastPulls_length] at hlen
  rw [List.append_nil, List.append_nil]
  refine ⟨hjobs, hjoined, hcounted.fetched, ?_, ?_⟩
  · intro hmissing hnil
    refine hcounted.errors_ne_nil ?_ (reportLoss_eq_nil hnil)
    rw [hlen, assigned_eq_length]
    exact hmissing
  · rintro req' r' ⟨⟩ ⟨⟩ hbound
    exact lossReported_of_counted hcounted hlen hbound _ rfl rfl

theorem runRingStep_ends {req : RingStepRequest} {r : RingStepResponse}
    (hmount : cfg.mounts.get? req.mount = some mount)
    (h : (runRingStep cfg req).Ends resp hs js r) :
    Balanced cfg mount (.runRingStep req) hs js (.ringStep r) := by
  unfold runRingStep at h
  rw [hmount] at h
  simp only at h
  split at h
  · rename_i haddr
    obtain ⟨rfl, rfl, rfl⟩ := h
    refine ⟨?_, rfl, rfl, ?_, nofun⟩
    · rw [Job.tasks, haddr]
      rfl
    · intro _ hnil
      cases hnil
  · rename_i workerAddr haddr
    obtain ⟨got, hs₁, _, _, _, rfl, rfl, hcollect, h⟩ := h.of_bind
    obtain ⟨_, -, rfl, rfl, rfl⟩ := h
    obtain ⟨hjobs, hjoined, hcounted⟩ := collect_ends hcollect
    have hlen := outcomes_length hjobs hjoined
    rw [List.append_nil, List.append_nil]
    refine ⟨?_, hjoined, hcounted.fetched, ?_, nofun⟩
    · rw [hjobs, Job.tasks, haddr]
    · intro hmissing hnil
      refine hcounted.errors_ne_nil ?_ hnil
      rw [hlen, List.length_map]
      exact hmissing

theorem worker_ends {j : Job} {v : Node.Val ⊕ Val}
    (hmount : cfg.mounts.get? j.mount = some mount)
    (h : ((machine cfg).body (.inr j)).Ends resp hs js v) :
    ∃ w, v = .inr w ∧ Balanced cfg mount j hs js w := by
  obtain ⟨w, hs₁, _, js₁, _, rfl, rfl, hbody, hv, rfl, rfl⟩ := h.of_bind
  refine ⟨w, hv.symm, ?_⟩
  have hend : hs₁ ++ [] = hs₁ := List.append_nil hs₁
  have hend' : js₁ ++ [] = js₁ := List.append_nil js₁
  rw [hend, hend']
  cases j with
  | runShard req =>
      obtain ⟨r, _, _, _, _, rfl, rfl, hrun, rfl, rfl, rfl⟩ := hbody.of_bind
      rw [List.append_nil, List.append_nil]
      exact runShard_ends hmount hrun
  | runBroadcastShard req =>
      obtain ⟨r, _, _, _, _, rfl, rfl, hrun, rfl, rfl, rfl⟩ := hbody.of_bind
      rw [List.append_nil, List.append_nil]
      exact runBroadcastShard_ends hmount hrun
  | runRingStep req =>
      obtain ⟨r, _, _, _, _, rfl, rfl, hrun, rfl, rfl, rfl⟩ := hbody.of_bind
      rw [List.append_nil, List.append_nil]
      exact runRingStep_ends hmount hrun

/-! Every combination of outcomes occurs: nothing is assumed about what a task returns. -/

theorem spawnTasks_can_end (tasks : List Task) :
    ∃ hs out, (spawnTasks tasks).Ends (fun _ _ => True) hs [] out ∧
      out.length = tasks.length := by
  induction tasks with
  | nil => exact ⟨[], [], ⟨rfl, rfl, rfl⟩, rfl⟩
  | cons task tasks ih =>
      obtain ⟨hs, out, hends, hlen⟩ := ih
      refine ⟨⟨0, .inl task.job⟩ :: hs, (⟨0, .inl task.job⟩, task.report) :: out, ?_, ?_⟩
      · exact ⟨0, hs, rfl, hends.followed ⟨rfl, rfl, rfl⟩⟩
      · rw [List.length_cons, List.length_cons, hlen]

theorem awaitTasks_can_end (lost : String) (acc : Collected)
    (handles : List (Handle (Node.effect.extend effect) × (String → String)))
    (outcomes : List TaskOutcome) (hlen : outcomes.length = handles.length) :
    ∃ (js : List (Handle (Node.effect.extend effect) × TaskOutcome)) (got : Collected),
      (awaitTasks lost acc handles).Ends (fun _ _ => True) [] js got ∧
        js.map Prod.snd = outcomes := by
  induction handles generalizing acc outcomes with
  | nil => exact ⟨[], acc, ⟨rfl, rfl, rfl⟩, (List.eq_nil_of_length_eq_zero hlen).symm⟩
  | cons hr handles ih =>
      cases outcomes with
      | nil => cases hlen
      | cons v outcomes =>
          obtain ⟨js, got, hends, hsnd⟩ :=
            ih (acc.add hr.2 lost v) outcomes (Nat.succ.inj hlen)
          exact ⟨(hr.1, v) :: js, got, ⟨v, js, rfl, hends⟩, congrArg (List.cons v) hsnd⟩

theorem collect_can_end (lost : String) (tasks : List Task) (outcomes : List TaskOutcome)
    (hlen : outcomes.length = tasks.length) :
    ∃ (hs : List (Handle (Node.effect.extend effect)))
      (js : List (Handle (Node.effect.extend effect) × TaskOutcome)) (got : Collected),
      (collect lost tasks).Ends (fun _ _ => True) hs js got ∧ js.map Prod.snd = outcomes := by
  obtain ⟨hs, handles, hspawn, hhandles⟩ := spawnTasks_can_end tasks
  obtain ⟨js, got, hawait, hsnd⟩ := awaitTasks_can_end lost ⟨0, 0, []⟩ handles outcomes
    (hlen.trans hhandles.symm)
  exact ⟨_, _, got, hspawn.bind hawait, hsnd⟩

theorem worker_can_end {j : Job} (hmount : cfg.mounts.get? j.mount = some mount)
    (outcomes : List TaskOutcome) (hlen : outcomes.length = (j.tasks cfg mount).length) :
    ∃ (hs : List (Handle (Node.effect.extend effect)))
      (js : List (Handle (Node.effect.extend effect) × TaskOutcome)) (w : Val),
      ((machine cfg).body (.inr j)).Ends (fun _ _ => True) hs js (.inr w) ∧
        js.map Prod.snd = outcomes := by
  -- the value of the program is the value of the body
  have hbody : ∀ {α : Type} {p : WorkerM α} {f : α → Val}
      {hs : List (Handle (Node.effect.extend effect))}
      {js : List (Handle (Node.effect.extend effect) × TaskOutcome)},
      (∃ a, p.Ends (fun _ _ => True) hs js a) →
      ∃ w, ((p >>= fun a => pure (f a)) >>= fun v => pure (.inr v) :
        WorkerM (Node.Val ⊕ Val)).Ends (fun _ _ => True) hs js (.inr w) := by
    rintro α p f hs js ⟨a, hp⟩
    have hinner : (p >>= fun a => pure (f a)).Ends (fun _ _ => True) hs js (f a) :=
      hp.followed ⟨rfl, rfl, rfl⟩
    exact ⟨f a, hinner.followed ⟨rfl, rfl, rfl⟩⟩
  cases j with
  | runShard req =>
      change cfg.mounts.get? req.mount = some mount at hmount
      obtain ⟨hs, js, got, hcollect, hsnd⟩ := collect_can_end joinError _ outcomes hlen
      have hrun : ∃ r, (runShard cfg req).Ends (fun _ _ => True) hs js r := by
        unfold runShard
        rw [hmount]
        exact ⟨_, hcollect.followed ⟨(), trivial, [], trivial, rfl, rfl, rfl⟩⟩
      obtain ⟨w, hw⟩ := hbody hrun
      exact ⟨hs, js, w, hw, hsnd⟩
  | runBroadcastShard req =>
      change cfg.mounts.get? req.mount = some mount at hmount
      obtain ⟨hs, js, got, hcollect, hsnd⟩ := collect_can_end joinError _ outcomes hlen
      have hrun : ∃ r, (runBroadcastShard cfg req).Ends (fun _ _ => True) hs js r := by
        unfold runBroadcastShard
        rw [hmount]
        exact ⟨_, hcollect.followed ⟨(), trivial, rfl, rfl, rfl⟩⟩
      obtain ⟨w, hw⟩ := hbody hrun
      exact ⟨hs, js, w, hw, hsnd⟩
  | runRingStep req =>
      change cfg.mounts.get? req.mount = some mount at hmount
      cases haddr : prevWorkerAddr cfg req with
      | none =>
          have hrun : ∃ r, (runRingStep cfg req).Ends (fun _ _ => True) [] [] r := by
            unfold runRingStep
            rw [hmount]
            simp only [haddr]
            exact ⟨_, rfl, rfl, rfl⟩
          obtain ⟨w, hw⟩ := hbody hrun
          simp only [Job.tasks, haddr] at hlen
          exact ⟨[], [], w, hw, (List.eq_nil_of_length_eq_zero hlen).symm⟩
      | some workerAddr =>
          simp only [Job.tasks, haddr] at hlen
          obtain ⟨hs, js, got, hcollect, hsnd⟩ := collect_can_end
            (let step := req.step; s!"step {step} {joinError}") _ outcomes hlen
          have hrun : ∃ r, (runRingStep cfg req).Ends (fun _ _ => True) hs js r := by
            unfold runRingStep
            rw [hmount]
            simp only [haddr]
            exact ⟨_, hcollect.followed ⟨(), trivial, rfl, rfl, rfl⟩⟩
          obtain ⟨w, hw⟩ := hbody hrun
          exact ⟨hs, js, w, hw, hsnd⟩

end Workers

/-! ## The coordinator -/

theorem crossCheck_eq_nil {a : Nat} {s : BroadcastShardResponse} (h : crossCheck a s = []) :
    a ≤ s.fetched := by
  unfold crossCheck at h
  dsimp only at h
  split_ifs at h with hskew hlost hlost
  · exact absurd h (by simp)
  · exact absurd h (by simp)
  · rw [h, List.length_nil, saturatingAdd] at hlost
    omega

section Phase

variable {cfg : NodeConfig} {c : Config (machine cfg)}

/-- A response of the worker without errors leaves nothing out, also for a mount that the
node does not know. -/
theorem runBroadcastShard_fetched
    {resp : (o : (Node.effect.extend effect).Op) → (Node.effect.extend effect).Resp o → Prop}
    {hs : List (Handle (Node.effect.extend effect))}
    {js : List (Handle (Node.effect.extend effect) × TaskOutcome)}
    {req : BroadcastShardRequest} {r : BroadcastShardResponse}
    (h : ((machine cfg).body (.inr (.runBroadcastShard req))).Ends resp hs js
      (.inr (.broadcastShard r))) (hnil : r.errors = []) : assigned req.sources ≤ r.fetched := by
  cases hmount : cfg.mounts.get? req.mount with
  | some mount =>
      obtain ⟨w, hw, -, -, hbooked⟩ := worker_ends hmount h
      cases hw
      by_contra hless
      rw [assigned_eq_length] at hless
      exact hbooked.reported (Nat.lt_of_not_le hless) hnil
  | none =>
      obtain ⟨w, _, _, _, _, -, -, hbody, hw, -, -⟩ := h.of_bind
      cases hw
      obtain ⟨r', _, _, _, _, -, -, hrun, hr, -, -⟩ := hbody.of_bind
      cases hr
      unfold runBroadcastShard at hrun
      rw [hmount] at hrun
      rw [← hrun.1] at hnil
      cases hnil

/-- The coordinator's own shard was worked through by the worker of this node. -/
def RanHere (c : Config (machine cfg)) (mount : String) (plan : List BroadcastSource)
    (ends : Nat → ShardEnd) : Prop :=
  ∀ i d r, (broadcastPhase mount plan)[i]? = some d → ends i = .ran r →
    ∃ t, c.Ended ⟨t, .inr (.runBroadcastShard d.body)⟩ (some (.inr (.broadcastShard r)))

theorem runBroadcastPhase_fetched {log : Nat → List (Told (Node.effect.extend effect))}
    (hrecorded : c.Recorded log) {mount : String}
    {plan : List BroadcastSource} {timeout : Nat} {ends : Option (Nat → ShardEnd)}
    (hran : ∀ f, ends = some f → RanHere c mount plan f) {stats : PerPeerStats}
    (hstats : stats ∈ runBroadcastPhase mount plan timeout ends) (hnil : stats.errors = []) :
    stats.assignedChunks ≤ stats.fetched := by
  cases ends with
  | none =>
      rw [runBroadcastPhase, List.mem_singleton] at hstats
      subst hstats
      cases hnil
  | some ends =>
      rw [runBroadcastPhase, List.mem_map] at hstats
      obtain ⟨⟨d, i⟩, hmem, rfl⟩ := hstats
      have hd : (broadcastPhase mount plan)[i]? = some d := List.mem_zipIdx_iff_getElem?.mp hmem
      cases hend : ends i with
      | ran r =>
          simp only [hend] at hnil ⊢
          obtain ⟨t, ht⟩ := hran ends rfl i d r hd hend
          obtain ⟨js, -, hbody⟩ := hrecorded.ends ht
          obtain ⟨receiver, -, rfl⟩ := List.mem_map.mp (List.mem_of_getElem? hd)
          exact runBroadcastShard_fetched hbody hnil
      | answered s =>
          simp only [hend] at hnil ⊢
          exact crossCheck_eq_nil hnil
      | decodeFailed cause | postFailed cause =>
          simp only [hend] at hnil
          cases hnil
      | joinFailed cause => exact Nat.zero_le _

/-- The accounting never hides a failure: not the workers', for any outcomes of their tasks,
and not the coordinator's, for any answer that it gets. -/
theorem failures_accounted {s : State}
    (hreach : Config.Reach (fun _ _ => True) (Config.init s) c) :
    (∀ (t : Nat) (j : Job) (mount : MountConfig) (w : Val),
      cfg.mounts.get? j.mount = some mount → c.Ended ⟨t, .inr j⟩ (some (.inr w)) →
      ∃ js, Balanced cfg mount j (c.children t) js w ∧ ∀ x ∈ js, c.Ended x.1 x.2) ∧
    (∀ (j : Job) (mount : MountConfig) (outcomes : List TaskOutcome),
      cfg.mounts.get? j.mount = some mount →
      outcomes.length = (j.tasks cfg mount).length →
      ∃ hs js w, ((machine cfg).body (.inr j)).Ends (fun _ _ => True) hs js (.inr w) ∧
        Balanced cfg mount j hs js w ∧ js.map Prod.snd = outcomes) ∧
    ∀ (mount : String) (plan : List BroadcastSource) (timeout : Nat)
      (ends : Option (Nat → ShardEnd)), (∀ f, ends = some f → RanHere c mount plan f) →
      ∀ stats ∈ runBroadcastPhase mount plan timeout ends,
        stats.errors = [] → stats.assignedChunks ≤ stats.fetched := by
  obtain ⟨log, hrecorded⟩ := hreach.recorded
  refine ⟨?_, ?_, ?_⟩
  · intro t j mount w hmount hend
    obtain ⟨js, hjs, hbody⟩ := hrecorded.ends hend
    obtain ⟨w', hw, hbalanced⟩ := worker_ends hmount hbody
    cases hw
    exact ⟨js, hbalanced, hjs⟩
  · intro j mount outcomes hmount hlen
    obtain ⟨hs, js, w, hbody, hsnd⟩ := worker_can_end hmount outcomes hlen
    obtain ⟨w', hw, hbalanced⟩ := worker_ends hmount hbody
    cases hw
    exact ⟨hs, js, w, hbody, hbalanced, hsnd⟩
  · intro mount plan timeout ends hran stats hstats hnil
    exact runBroadcastPhase_fetched hrecorded hran hstats hnil

end Phase

/-- The only task of a shard is lost. -/
def lostTurns : List (Label (machine sampleConfig)) :=
  [.start (.inr sampleShard)] ++ workerTurns 0 1 ++ [.cancel 1] ++ workerTurns 0 4

theorem failures_accounted_of_lost_task :
    ∃ c : Config (machine sampleConfig),
      Config.Reach (fun _ _ => True) (Config.init (State.new sampleConfig)) c ∧
      c.Ended ⟨0, .inr sampleShard⟩ (some (.inr (.shard ⟨0, 0, [joinError]⟩))) ∧
      ∃ js, Balanced sampleConfig sampleMount sampleShard (c.children 0) js
          (.shard ⟨0, 0, [joinError]⟩) ∧
        ∀ x ∈ js, c.Ended x.1 x.2 := by
  obtain ⟨c, hreach, hc⟩ := Config.reach_of_labels
    (Config.init (State.new sampleConfig) : Config (machine sampleConfig)) lostTurns
    (·.answered 0 sampleShard (.shard ⟨0, 0, [joinError]⟩)) (by decide +kernel)
  have hend := Config.ended_of_answered hc
  exact ⟨c, hreach, hend, (failures_accounted hreach).1 0 sampleShard sampleMount _ rfl hend⟩

end BlobCache.Hydrate
