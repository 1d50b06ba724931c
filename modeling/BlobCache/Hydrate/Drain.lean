import BlobCache.Conc.Ends
import BlobCache.Conc.Handover
import BlobCache.Fetcher.Custody
import BlobCache.Hydrate.Held
import BlobCache.Node.Walk

/-!
The barrier of `await_inserts_drained`. It waits until `inflight_writes` is empty,
where each write is entered under its chunk before its task is started, and taken out
by the task when its insert is over.

So it waits for all of them as long as a chunk has one entry for one task, which is
what `Orderly` says: a second write of a chunk that is being written shares the entry,
and the first task to end takes it out.
-/

namespace BlobCache

open Conc

namespace Node

/-! ## The programs of the node -/

/-- A write is held from `inflight_writes.insert` on, for the task that is started next. -/
def writes : Roles effect where
  Key := ChunkKey
  takes
    | .fetch (.writesInsert key data) => some (.insertTask key data)
    | _ => none
  releases
    | .fetch (.writesRemove key) => some key
    | _ => none
  task
    | .insertTask key _ => some key
    | _ => none

theorem takes_of_routine {o : Op} (h : o.routine = true) : writes.takes o = none := by
  cases o with
  | fetch o =>
      cases o with
      | writesInsert _ _ => cases h
      | _ => rfl
  | _ => rfl

theorem releases_of_routine {o : Op} (h : o.routine = true) : writes.releases o = none := by
  cases o with
  | fetch o =>
      cases o with
      | writesRemove _ => cases h
      | _ => rfl
  | _ => rfl

theorem task_of_not_insertTask {j : Job} (h : j.isInsertTask = false) :
    writes.task j = none := by
  cases j with
  | insertTask _ _ => cases h
  | _ => rfl

variable {cfg : NodeConfig}

theorem spawn_keeps {own : Option ChunkKey} {j : Job} (h : j.isInsertTask = false) :
    (Node.spawn j).Keeps writes own :=
  .spawn (task_of_not_insertTask h) fun hd => .ret hd

theorem call_keeps {own : Option ChunkKey} {j : Job} {α : Type} {f : Option Val → NodeM α}
    (h : j.isInsertTask = false) (hf : ∀ v, (f v).Keeps writes own) :
    (Node.call j >>= f).Keeps writes own :=
  .spawn (task_of_not_insertTask h) fun _ => .join hf

theorem spawnInsert_keeps (key : ChunkKey) (data : Bytes) :
    (spawnInsert key data).Keeps writes none :=
  .take rfl rfl (fun _ => rfl) fun _ => .ret ()

theorem local_keeps : LocalWalk cfg fun _ p => p.Keeps writes none where
  pure a := .ret a
  bind hp hf := hp.bind hf
  op _ ho := .perform (takes_of_routine ho) (releases_of_routine ho)
  spawn _ _ hj := spawn_keeps hj
  join _ := .join fun v => .ret v
  note _ := .op rfl rfl fun _ => .op rfl rfl fun _ => .op rfl rfl fun _ => .ret _
  rebuild := .op rfl rfl fun _ => .op rfl rfl fun _ => .op rfl rfl fun _ => .ret _
  stored := spawnInsert_keeps
  finished _ _ := .op rfl rfl fun _ => .ret _
  served _ _ _ _ hroles := .op rfl rfl hroles

theorem node_keeps :
    NodeWalk cfg (fun _ => True) (fun _ => True) fun _ p => p.Keeps writes none where
  toLocalWalk := local_keeps
  started _ _ hj := spawn_keeps hj
  asked _ _ := .op rfl rfl fun _ => .ret _
  pulled _ _ _ _ _ _ _ _ _ := .op rfl rfl fun _ => .ret _
  members hf := .op rfl rfl fun alive => hf alive trivial
  leader key expectedLen yesCount alive _ :=
    local_keeps.askStampedeLeader key expectedLen yesCount alive
      fun _ _ _ _ _ => .op rfl rfl fun _ => .ret _
  led _ _ _ _ _ _ _ hroles := .op rfl rfl hroles

/-- The task gives up the write only when everything else is done. -/
theorem insertTask_keeps (key : ChunkKey) (data : Bytes) :
    (insertTask cfg key data).Keeps writes (some key) := by
  have hremove : (Node.fetch (.writesRemove key)).Keeps writes (some key) :=
    .release rfl rfl fun r => ⟨r, rfl⟩
  unfold insertTask
  apply call_keeps rfl
  intro got
  split
  · exact .op rfl rfl fun _ => .op rfl rfl fun _ => .op rfl rfl fun _ => hremove
  · exact .op rfl rfl fun _ => hremove
  · exact .op rfl rfl fun _ => hremove

theorem body_keeps (j : Job) : (body cfg j).Keeps writes (writes.task j) := by
  cases htask : j.isInsertTask with
  | false =>
      rw [task_of_not_insertTask htask]
      exact node_keeps.body j trivial htask
  | true =>
      cases j with
      | insertTask key data => exact (insertTask_keeps key data).map fun _ => Val.unit
      | _ => cases htask

/-! ## The state -/

/-- A write of the chunk is in flight. -/
def State.Writing (s : State) (key : ChunkKey) : Prop := s.fetch.inflightWrites.get? key ≠ none

section Ops

variable {t : Nat} {o : Op} {ch : Choice} {s s' : State} {r : o.Resp} {key : ChunkKey}

/-- What an operation does to the writes. -/
theorem exec_writes (hex : exec cfg t o ch s = some (r, s')) :
    s'.fetch.inflightWrites = s.fetch.inflightWrites ∨
      ∃ o', o = .fetch o' ∧ s'.fetch.inflightWrites = s.fetch.writesAfter o' := by
  cases o with
  | fetch o => exact .inr ⟨o, rfl, (FetchState.exec_frame (exec_fetch hex).1).1⟩
  | disk o =>
      rw [(exec_disk hex).2.2]
      exact .inl rfl
  | index o =>
      rw [(exec_index hex).2.2]
      exact .inl rfl
  | snapshotKeys =>
      rw [(exec_snapshotKeys hex).2.2.1]
      exact .inl rfl

theorem writing_of_plain (hex : exec cfg t o ch s = some (r, s'))
    (hclear : o = .fetch .writesClear → ¬ s.Writing key) (htakes : writes.takes o = none)
    (hreleases : writes.releases o = none) (h : s.Writing key) : s'.Writing key := by
  rcases exec_writes hex with hsame | ⟨o', rfl, hafter⟩
  · rw [State.Writing, hsame]
    exact h
  · rw [State.Writing, hafter]
    cases o' with
    | writesInsert _ _ => cases htakes
    | writesRemove _ => cases hreleases
    | writesClear => exact absurd h (hclear rfl)
    | _ => exact h

theorem writing_of_insert {data : Bytes} {r : Unit}
    (hex : exec cfg t (.fetch (.writesInsert key data)) ch s = some (r, s')) (key' : ChunkKey) :
    s'.Writing key' ↔ key' = key ∨ s.Writing key' := by
  have hafter := (FetchState.exec_frame (exec_fetch hex).1).1
  rw [State.Writing, hafter, FetchState.writesAfter, FinMap.get?_insert]
  split
  · rename_i heq
    simp [heq]
  · rename_i hne
    simp [hne, State.Writing]

theorem writing_of_remove {r : Unit}
    (hex : exec cfg t (.fetch (.writesRemove key)) ch s = some (r, s')) {key' : ChunkKey}
    (hne : key' ≠ key) (h : s.Writing key') : s'.Writing key' := by
  have hafter := (FetchState.exec_frame (exec_fetch hex).1).1
  rw [State.Writing, hafter, FetchState.writesAfter, FinMap.get?_erase, if_neg hne]
  exact h

end Ops

end Node

namespace Hydrate

open Node

/-! ## The workers -/

/-- The roles of the node, in which the workers have none. -/
def writes : Roles (Node.effect.extend effect) := Node.writes.extend effect

section Workers

theorem spawnTasks_keeps {tasks : List Task} (h : ∀ task ∈ tasks, task.job.isInsertTask = false) :
    (spawnTasks tasks).Keeps writes none := by
  induction tasks with
  | nil => exact .ret _
  | cons task tasks ih =>
      have hrest := ih fun other hother => h other (List.mem_cons_of_mem _ hother)
      apply Program.Keeps.spawn
      · exact task_of_not_insertTask (h task List.mem_cons_self)
      · intro hd
        exact hrest.bind fun _ => .ret _

theorem awaitTasks_keeps (lost : String) (acc : Collected)
    (hs : List (Handle (Node.effect.extend effect) × (String → String))) :
    (awaitTasks lost acc hs).Keeps writes none := by
  induction hs generalizing acc with
  | nil => exact .ret _
  | cons x hs ih => exact .join fun got => ih (acc.add x.2 lost got)

theorem collect_keeps (lost : String) {tasks : List Task}
    (h : ∀ task ∈ tasks, task.job.isInsertTask = false) :
    (collect lost tasks).Keeps writes none :=
  (spawnTasks_keeps h).bind fun _ => awaitTasks_keeps lost _ _

theorem awaitInsertsDrained_keeps : awaitInsertsDrained.Keeps writes none := .perform rfl rfl

/-- The tasks of a worker are fetches of its chunks. -/
theorem forall_map_task {α : Type} (f : α → Task) (xs : List α)
    (h : ∀ x, (f x).job.isInsertTask = false) :
    ∀ task ∈ xs.map f, task.job.isInsertTask = false := by
  intro task htask
  obtain ⟨x, -, rfl⟩ := List.mem_map.mp htask
  exact h x

variable (cfg : NodeConfig)

theorem runShard_keeps (req : ShardRequest) : (runShard cfg req).Keeps writes none := by
  unfold runShard
  split
  · exact .ret _
  · apply (collect_keeps _ (forall_map_task _ _ fun _ => rfl)).bind
    intro got
    apply awaitInsertsDrained_keeps.bind
    intro _
    exact .op rfl rfl fun _ => .ret _

theorem runBroadcastShard_keeps (req : BroadcastShardRequest) :
    (runBroadcastShard cfg req).Keeps writes none := by
  unfold runBroadcastShard
  split
  · exact .ret _
  · apply (collect_keeps _ (forall_map_task _ _ fun _ => rfl)).bind
    intro got
    exact awaitInsertsDrained_keeps.bind fun _ => .ret _

theorem runRingStep_keeps (req : RingStepRequest) : (runRingStep cfg req).Keeps writes none := by
  unfold runRingStep
  split
  · exact .ret _
  · split
    · exact .ret _
    · apply (collect_keeps _ (forall_map_task _ _ fun _ => rfl)).bind
      intro got
      exact awaitInsertsDrained_keeps.bind fun _ => .ret _

theorem body_keeps (j : Job) : (body cfg j).Keeps writes none := by
  cases j with
  | runShard req => exact (runShard_keeps cfg req).map _
  | runBroadcastShard req => exact (runBroadcastShard_keeps cfg req).map _
  | runRingStep req => exact (runRingStep_keeps cfg req).map _

end Workers

/-! ## Runs -/

variable {cfg : NodeConfig}

/-- A chunk is entered into the writes in flight only while it is not there, and they are
cleared only when there are none. -/
def Orderly (s : State) : Event (machine cfg) → Prop
  | .op _ (.inl (.fetch (.writesInsert key _))) _ => ¬ s.Writing key
  | .op _ (.inl (.fetch .writesClear)) _ => ∀ key, ¬ s.Writing key
  | _ => True

theorem writes_lawful : writes.Lawful (machine cfg) Orderly State.Writing where
  body j := by
    cases j with
    | inl j => exact ((Node.body_keeps j).lift effect).map _
    | inr j => exact (body_keeps cfg j).map _
  external j hext := by
    cases j with
    | inl j =>
        cases j with
        | insertTask _ _ => cases hext
        | _ => rfl
    | inr j => rfl
  ret _ _ := rfl
  plain {t o ch s r s' key} hG hex htakes hreleases hkey := by
    cases o with
    | inr o =>
        cases o
        cases hex
        exact hkey
    | inl o =>
        have hop : Node.exec cfg t o ch s = some (r, s') := hex
        apply writing_of_plain hop _ (Option.map_eq_none_iff.mp htakes) hreleases hkey
        rintro rfl
        exact hG key
  take {t o ch s r s' j key} hG hex htakes htask := by
    cases o with
    | inr o => cases htakes
    | inl o =>
        cases o with
        | fetch o =>
            cases o with
            | writesInsert key' data =>
                cases htakes
                cases htask
                have hins : Node.exec cfg t (.fetch (.writesInsert key data)) ch s =
                    some (r, s') := hex
                exact ⟨hG, (writing_of_insert hins key).mpr (.inl rfl)⟩
            | _ => cases htakes
        | _ => cases htakes
  taken {t o ch s r s' j key} _ hex htakes hkey := by
    cases o with
    | inr o => cases htakes
    | inl o =>
        cases o with
        | fetch o =>
            cases o with
            | writesInsert key' data =>
                have hins : Node.exec cfg t (.fetch (.writesInsert key' data)) ch s =
                    some (r, s') := hex
                exact (writing_of_insert hins key).mpr (.inr hkey)
            | _ => cases htakes
        | _ => cases htakes
  release {t o ch s r s' key key'} hex hreleases hne hkey := by
    cases o with
    | inr o => cases hreleases
    | inl o =>
        cases o with
        | fetch o =>
            cases o with
            | writesRemove key'' =>
                cases hreleases
                have hrem : Node.exec cfg t (.fetch (.writesRemove key)) ch s = some (r, s') := hex
                exact writing_of_remove hrem hne hkey
            | _ => cases hreleases
        | _ => cases hreleases
  cancel {t s key} hkey := by
    change (s.fetch.dropGuard t).inflightWrites.get? key ≠ none
    rw [(FetchState.dropGuard_frame s.fetch t).1]
    exact hkey

/-- The insert that task `t` is for has ended. -/
def InsertOver (c : Config (machine cfg)) (t : Nat) (key : ChunkKey) (data : Bytes) : Prop :=
  ∃ (u : Nat) (th : Thread (Node.effect.extend effect)), c.threads[u]? = some th ∧
    th.parent = some t ∧ th.job = .inl (.insert key data) ∧ th.finished = true

/-- A task that is over has awaited its insert. -/
theorem insertOver_of_over {c : Config (machine cfg)}
    {log : Nat → List (Told (Node.effect.extend effect))} (hrec : c.Recorded log) {t : Nat}
    {th : Thread (Node.effect.extend effect)} {key : ChunkKey} {data : Bytes}
    (hth : c.threads[t]? = some th) (hjob : th.job = .inl (.insertTask key data))
    (hover : th.status.Over) : InsertOver c t key data := by
  have hends : ∃ v js, (∀ x ∈ js, c.Ended x.1 x.2) ∧
      ((machine cfg).body th.job).Ends (fun _ _ => True) (c.children t) js v := by
    rcases hover with ⟨v, hst⟩ | ⟨v, hst⟩
    · obtain ⟨js, hjs, hbody⟩ := hrec.ends_of_ret hth hst
      exact ⟨v, js, hjs, hbody⟩
    · have hend : c.Ended ⟨t, th.job⟩ (some v) := ⟨th, hth, rfl, hst⟩
      obtain ⟨js, hjs, hbody⟩ := hrec.ends hend
      exact ⟨v, js, hjs, hbody⟩
  obtain ⟨v, js, hjs, hbody⟩ := hends
  rw [hjob] at hbody
  obtain ⟨u, hs, hchildren, w, js', hawaited, -⟩ := hbody
  obtain ⟨child, hchild, hparent, hchildJob⟩ :=
    Config.thread_of_mem_children (hchildren ▸ List.mem_cons_self)
  obtain ⟨same, hsame, -, hst⟩ := hjs _ (hawaited ▸ List.mem_cons_self)
  cases hchild.symm.trans hsame
  refine ⟨u, child, hchild, hparent, hchildJob, ?_⟩
  rw [Thread.finished, hst]
  cases w with
  | none => rfl
  | some w => rfl

/-- When `await_inserts_drained` returns, the insert of every task that has been started is
over, in every run whose steps are orderly. -/
theorem inserts_over_when_drained {s : State} {c c' : Config (machine cfg)}
    {l : Label (machine cfg)} {t : Nat} {ch : Choice}
    (hrun : Config.Reach Orderly (.init s) c)
    (hdrain : c.step l = some (.op t (.inl (.fetch .waitDrained)) ch, c')) {u : Nat}
    {key : ChunkKey} {data : Bytes} (htask : c.job u = some (.inl (.insertTask key data))) :
    InsertOver c u key data := by
  obtain ⟨th, hth, hjob⟩ := Option.map_eq_some_iff.mp htask
  have hcustody := hrun.inCustody writes_lawful (.init (M := machine cfg) s)
  obtain ⟨log, hrec⟩ := hrun.recorded
  have hempty : ∀ key, ¬ c.state.Writing key := by
    obtain ⟨-, -, r, -, -, hex, -⟩ := Config.step_op hdrain
    have hwait : Node.exec cfg t (.fetch .waitDrained) ch c.state = some (r, c'.state) := hex
    intro key
    exact not_not.mpr (FetchState.exec_drained (exec_fetch hwait).1 key)
  have hrole : writes.task th.job = some key := by
    rw [hjob]
    rfl
  exact insertOver_of_over hrec hth hjob (hcustody.task_over hempty hth hrole)

/-- The next step of thread `t` is the return of `await_inserts_drained`. -/
def drainReturns (c : Config (machine cfg)) (t : Nat) : Bool :=
  match c.step (.run t Choice.benign) with
  | some (.op _ (.inl (.fetch .waitDrained)) _, _) => true
  | _ => false

theorem exists_of_drainReturns {c : Config (machine cfg)} {t : Nat} (h : drainReturns c t = true) :
    ∃ u ch c', c.step (.run t Choice.benign) =
      some (.op u (.inl (.fetch .waitDrained)) ch, c') := by
  unfold drainReturns at h
  split at h
  · rename_i hstep
    exact ⟨_, _, _, hstep⟩
  · cases h

def orderlyGate (s : State) : Event (machine sampleConfig) → Bool
  | .op _ (.inl (.fetch (.writesInsert key _))) _ => (s.fetch.inflightWrites.get? key).isNone
  | .op _ (.inl (.fetch .writesClear)) _ => false
  | _ => true

theorem orderly_of_gate (s : State) (e : Event (machine sampleConfig))
    (h : orderlyGate s e = true) : Orderly s e := by
  cases e with
  | op t o c =>
      cases o with
      | inr o => trivial
      | inl o =>
          cases o with
          | fetch o =>
              cases o with
              | writesInsert key data => exact not_not.mpr (Option.isNone_iff_eq_none.mp h)
              | writesClear => cases h
              | _ => trivial
          | _ => trivial
  | _ => trivial

/-- The worker of a shard, whose chunk has been stored, before it looks at the writes. -/
def storedTurns : List (Label (machine sampleConfig)) :=
  (shardTurns sampleShard).dropLast.dropLast

theorem inserts_over_when_drained_of_shard :
    ∃ c c' : Config (machine sampleConfig), ∃ t ch,
      Config.Reach Orderly (.init (State.new sampleConfig)) c ∧
      c.step (.run 0 Choice.benign) = some (.op t (.inl (.fetch .waitDrained)) ch, c') ∧
      InsertOver c 3 (sampleKey 0) [1, 2, 3, 4] := by
  obtain ⟨c, hrun, hc⟩ := Config.reach_of_replay orderly_of_gate
    (.init (State.new sampleConfig)) storedTurns
    (fun c => drainReturns c 0 &&
      decide (c.job 3 = some (.inl (.insertTask (sampleKey 0) [1, 2, 3, 4])))) (by decide +kernel)
  simp only [Bool.and_eq_true, decide_eq_true_eq] at hc
  obtain ⟨t, ch, c', hstep⟩ := exists_of_drainReturns hc.1
  exact ⟨c, c', t, ch, hrun, hstep, inserts_over_when_drained hrun hstep hc.2⟩

/-- Thread `t` pulls the chunk from its peer and starts the task that stores it. -/
def pullTurns (t : Nat) : List (Label (machine sampleConfig)) :=
  workerTurns t 2 ++ [.run t { Choice.benign with
    fetch := { Choice.benign.fetch with peer := .ok [1, 2, 3, 4] } }] ++ workerTurns t 3

/-- Two ring steps that ask for the same chunk. Both pulls miss the cache, and both start a
task. -/
def twoPulls : List (Label (machine sampleConfig)) :=
  [.start (.inr sampleRingStep), .start (.inr sampleRingStep)] ++ workerTurns 0 1 ++
    workerTurns 1 1 ++ pullTurns 2 ++ pullTurns 3

/-- The first task stores the chunk and takes the entry out, while the insert of the second
is only started. -/
def firstStores : List (Label (machine sampleConfig)) :=
  workerTurns 4 1 ++ workerTurns 5 1 ++ workerTurns 6 7 ++ workerTurns 4 6 ++ workerTurns 1 1

/-- The worker still awaits a task, so it has not called `await_inserts_drained` yet. -/
def awaitsTask (c : Config (machine cfg)) (t : Nat) : Bool :=
  match c.threads[t]? with
  | some ⟨_, _, .running (.join _ _)⟩ => true
  | _ => false

/-- No insert that thread `t` started has ended. -/
def insertRunning (c : Config (machine cfg)) (t : Nat) : Bool :=
  c.threads.all fun th => !(decide (th.parent = some t) && th.finished)

theorem not_insertOver {c : Config (machine cfg)} {t : Nat} (h : insertRunning c t = true)
    (key : ChunkKey) (data : Bytes) : ¬ InsertOver c t key data := by
  rintro ⟨u, th, hth, hparent, -, hfinished⟩
  have hnot := List.all_eq_true.mp h th (List.mem_of_getElem? hth)
  simp [hparent, hfinished] at hnot

/-- The drain of the second ring step returns while the insert that the step itself started
before it called has not ended. -/
theorem drain_misses_second_write :
    ∃ c0 c c' : Config (machine sampleConfig), ∃ t ch,
      Config.Reach (fun _ _ => True) (.init (State.new sampleConfig)) c0 ∧
      c0.job 5 = some (.inl (.insertTask (sampleKey 0) [1, 2, 3, 4])) ∧ awaitsTask c0 1 = true ∧
      Config.Reach (fun _ _ => True) c0 c ∧
      c.step (.run 1 Choice.benign) = some (.op t (.inl (.fetch .waitDrained)) ch, c') ∧
      ¬ InsertOver c 5 (sampleKey 0) [1, 2, 3, 4] := by
  obtain ⟨c0, hrun0, hc0⟩ := Config.reach_of_labels (.init (State.new sampleConfig)) twoPulls
    (fun c0 => decide (c0.job 5 = some (.inl (.insertTask (sampleKey 0) [1, 2, 3, 4]))) &&
      awaitsTask c0 1 && (Config.replay (fun _ _ => true) c0 firstStores).any fun c =>
        drainReturns c 1 && insertRunning c 5) (by decide +kernel)
  simp only [Bool.and_eq_true, decide_eq_true_eq] at hc0
  obtain ⟨⟨hjob, hawaits⟩, hmore⟩ := hc0
  obtain ⟨c, hrun, hc⟩ := Config.reach_of_labels c0 firstStores
    (fun c => drainReturns c 1 && insertRunning c 5) hmore
  simp only [Bool.and_eq_true] at hc
  obtain ⟨t, ch, c', hstep⟩ := exists_of_drainReturns hc.1
  exact ⟨c0, c, c', t, ch, hrun0, hjob, hawaits, hrun, hstep, not_insertOver hc.2 _ _⟩

end Hydrate

end BlobCache
