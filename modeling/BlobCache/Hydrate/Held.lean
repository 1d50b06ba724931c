import BlobCache.Hydrate.Coverage
import BlobCache.Hydrate.Secured
import BlobCache.Hydrate.Worker
import BlobCache.Node.PromiseSpecs
import BlobCache.Node.Replay

/-!
What the response of a hydrate worker says about the cache. A worker counts a
chunk when its fetch returns, while the insert may still be under way. It then
waits for `inflight_writes` to be empty, and `run_shard` alone also looks at the
failures that the inserts left behind.

A response without errors can be trusted unless somebody interferes, as
`Accounted` says: the peer LRU holds chunks that nobody inserts, failures are
recorded for everybody but taken by one, and the other two workers do not look at
them at all.
-/

namespace BlobCache.Hydrate

open Conc Node Cache

variable {A : List ChunkKey} {listed : Bool} {s s' : State} {l : Tally}

/-! ## The workers -/

/-- The state after the recorded failures have been taken. -/
def withoutFailures (s : State) : State := { s with fetch := s.fetch.takeInsertFailures.2 }

/-- Taking failures takes nothing from those who do not count on them. -/
theorem take_preserves (hcond : listed = false ∨ ∀ k ∈ A, ¬ Noted s k) :
    Preserves A listed s (withoutFailures s) where
  stored _ hk := hk
  noted hlisted k hA hk := by
    rcases hcond with hnot | hnone
    · rw [hnot] at hlisted
      cases hlisted
    · exact absurd hk (hnone k hA)
  writes _ _ hk := .inl hk
  slots _ slot hslot := ⟨slot, hslot, rfl⟩

theorem take_sources (h : Sources A listed s) (hpres : Preserves A listed s (withoutFailures s)) :
    Sources A listed (withoutFailures s) := by
  have hslots : FetchState.SlotStep s.fetch (withoutFailures s).fetch fun _ _ => False :=
    .of_eq h.mapped rfl rfl
  apply h.step hpres h.index h.lru hslots
  intro _ _ hsend
  exact hsend.elim

theorem not_noted (hnil : s.fetch.insertFailures = []) (k : ChunkKey) : ¬ Noted s k := by
  rw [Noted, hnil]
  rintro (hfull | ⟨e, he⟩)
  · cases hfull
  · cases he

/-- What a worker makes of the failures it takes. Without any, everything that
is over has landed. -/
def taken (l : Tally) : List (ChunkKey × String) → Tally
  | [] => { l with landed := l.settled ++ l.landed }
  | _ :: _ => { l with blamed := true }

/-- The worker looks at the recorded failures. -/
def Job.takesFailures : Job → Bool
  | .runShard _ => true
  | _ => false

variable (cfg : NodeConfig)

/-- A response without errors is given only when the worker was told of no
failure and knows that the chunks are settled, or that they have landed when it
looks at the failures. -/
def answers : (promises cfg).Extension effect where
  init _ := {}
  allows _ _ _ := True
  next l o r :=
    match o, r with
    | .takeInsertFailures, failures => taken l failures
  post j v l := Val.errors v = [] → Tally.blamed l = false ∧ ∀ k ∈ Job.assigned cfg j,
    k ∈ Tally.settled l ∧ (Job.takesFailures j = true → k ∈ Tally.landed l)

def protocol : Protocol (machine cfg) := (promises cfg).extend (answers cfg) (workers cfg)

/-- The steps under which the response of thread `t0`, a call of `j`, can be
trusted: the fetcher does as `Permitted` says, and nobody else takes a failure of
an assigned chunk, or a list that has no room for one, from a worker that looks. -/
def Accounted (t0 : Nat) (j : Job) (s : State) : Event (machine cfg) → Prop
  | .op _ (.inl (.fetch o)) _ => Permitted (j.assigned cfg) j.takesFailures s o
  | .op t (.inr .takeInsertFailures) _ =>
      j.takesFailures = false ∨ t = t0 ∨ ∀ k ∈ j.assigned cfg, ¬ Noted s k
  | _ => True

/-- Unless thread `t0` has been told of failures, the sources are sound and what
the threads know is so. -/
def Ledger (t0 : Nat) (j : Job) (s : State) (ws : Views (protocol cfg)) : Prop :=
  (∃ v, ws t0 = some v ∧ Tally.blamed v.loc = true) ∨
    (Sources (j.assigned cfg) j.takesFailures s ∧
      ∀ t v, ws t = some v → Backed (j.assigned cfg) j.takesFailures s v.loc)

section Programs

variable {cfg : NodeConfig} {l : Tally} {α β : Type}

theorem pushError_ne_nil (errors : List String) (e : String) : pushError errors e ≠ [] := by
  unfold pushError
  split
  · simp
  · rename_i hfull
    rintro rfl
    exact hfull (by decide)

/-- Only a chunk that was fetched adds no error. -/
theorem Collected.add_errors {acc : Collected} {report : String → String} {lost : String}
    {r : Option (Node.Val ⊕ Val)} (h : (acc.add report lost r).errors = []) :
    acc.errors = [] ∧ ∃ b, r = some (.inl (.fetched (.ok b))) := by
  unfold Collected.add at h
  split at h
  · rename_i b
    exact ⟨h, b, rfl⟩
  · exact absurd h (pushError_ne_nil _ _)
  · exact absurd h (pushError_ne_nil _ _)

theorem spawnTasks_told (tasks : List Task) :
    (spawnTasks tasks).Sat (protocol cfg) l fun hs l' =>
      l' = l ∧ ∀ task ∈ tasks, ∃ x ∈ hs, x.1.job = .inl task.job := by
  induction tasks with
  | nil => exact ⟨rfl, by simp⟩
  | cons task tasks ih =>
      refine ⟨trivial, trivial, fun t => ?_⟩
      change (spawnTasks tasks >>= fun hs =>
        pure ((⟨t, .inl task.job⟩, task.report) :: hs)).Sat (protocol cfg) l _
      refine Program.Sat.bind ih ?_
      rintro hs l' ⟨rfl, hjobs⟩
      refine ⟨rfl, fun other hother => ?_⟩
      rcases List.mem_cons.mp hother with rfl | hother
      · exact ⟨_, List.mem_cons_self, rfl⟩
      · obtain ⟨x, hx, hjob⟩ := hjobs other hother
        exact ⟨x, List.mem_cons_of_mem _ hx, hjob⟩

/-- Without an error every awaited chunk is promised. -/
theorem awaitTasks_told (lost : String)
    (hs : List (Handle (Node.effect.extend effect) × (String → String))) (acc : Collected) :
    (awaitTasks lost acc hs).Sat (protocol cfg) l fun acc' l' => l.Grows l' ∧
      (acc'.errors = [] → acc.errors = [] ∧ ∀ x ∈ hs, ∀ (j : Node.Job) (k : ChunkKey),
        x.1.job = .inl j → j.chunkKey? = some k → k ∈ l'.promised) := by
  induction hs generalizing acc l with
  | nil => exact ⟨.refl l, fun herr => ⟨herr, by simp⟩⟩
  | cons x hs ih =>
      obtain ⟨h, report⟩ := x
      intro r _
      have hgrows : l.Grows ((protocol cfg).joined l h r) := by
        obtain ⟨tid, job⟩ := h
        cases job with
        | inl j => exact .joined l j _
        | inr j => exact .refl l
      refine Program.Sat.mono (ih (acc.add report lost r)) ?_
      rintro acc' l' ⟨hrest, herr⟩
      refine ⟨hgrows.trans hrest, fun hnil => ?_⟩
      obtain ⟨hacc, hpromised⟩ := herr hnil
      obtain ⟨hnone, b, rfl⟩ := Collected.add_errors hacc
      refine ⟨hnone, ?_⟩
      intro x hx j k hjob hkey
      rcases List.mem_cons.mp hx with rfl | hx
      · -- the joined task has promised its chunk
        obtain ⟨tid, job⟩ := h
        cases hjob
        apply hrest.promised
        change k ∈ (j.grants (.fetched (.ok b))).toList ++ l.promised
        rw [Job.grants_ok, hkey]
        exact List.mem_cons_self
      · exact hpromised x hx j k hjob hkey

theorem collect_told (lost : String) (tasks : List Task) :
    (collect lost tasks).Sat (protocol cfg) l fun acc l' => l.Grows l' ∧
      (acc.errors = [] → ∀ task ∈ tasks, ∀ k, task.job.chunkKey? = some k →
        k ∈ l'.promised) := by
  refine Program.Sat.bind (spawnTasks_told tasks) ?_
  rintro hs l' ⟨rfl, hjobs⟩
  refine Program.Sat.mono (awaitTasks_told lost hs ⟨0, 0, []⟩) ?_
  rintro acc l'' ⟨hgrows, herr⟩
  refine ⟨hgrows, fun hnil task htask k hkey => ?_⟩
  obtain ⟨x, hx, hjob⟩ := hjobs task htask
  exact (herr hnil).2 x hx task.job k hjob hkey

/-- After the drain, the promised chunks are settled. -/
theorem drain_told {f : Unit → WorkerM β} {R : β → Tally → Prop}
    (hf : (f ()).Sat (protocol cfg) { l with settled := l.promised ++ l.settled } R) :
    (awaitInsertsDrained >>= f).Sat (protocol cfg) l R :=
  ⟨trivial, fun _ _ => hf⟩

theorem take_told {f : List (ChunkKey × String) → WorkerM β} {R : β → Tally → Prop}
    (hf : ∀ failures, (f failures).Sat (protocol cfg) (taken l failures) R) :
    (takeInsertFailures >>= f).Sat (protocol cfg) l R :=
  ⟨trivial, fun failures _ => hf failures⟩

theorem mem_assigned {j : Job} {mount : MountConfig} (hmount : cfg.mounts.get? j.mount = some mount)
    {k : ChunkKey} (hk : k ∈ j.assigned cfg) :
    ∃ c ∈ j.chunks, k = ⟨mount.name, c.blob, c.offset⟩ := by
  rw [Job.assigned, hmount] at hk
  obtain ⟨c, hc, rfl⟩ := List.mem_map.mp hk
  exact ⟨c, hc, rfl⟩

theorem pushErrors_eq_nil {α : Type} {report : α → String} {failures : List α}
    {errors : List String}
    (h : failures.foldl (fun errors f => pushError errors (report f)) errors = []) :
    failures = [] ∧ errors = [] := by
  induction failures generalizing errors with
  | nil => exact ⟨rfl, h⟩
  | cons f failures ih => exact absurd (ih h).2 (pushError_ne_nil _ _)

theorem runShard_told (req : ShardRequest) :
    (runShard cfg req).Sat (protocol cfg) {} fun resp l =>
      (answers cfg).post (.runShard req) (.shard resp) l := by
  unfold runShard
  split
  · intro herr
    cases herr
  · rename_i mount hmount
    refine Program.Sat.bind (collect_told joinError _) ?_
    rintro got l' ⟨hgrows, hpromised⟩
    apply drain_told
    apply take_told
    intro failures herr
    obtain ⟨rfl, hnil⟩ := pushErrors_eq_nil herr
    refine ⟨hgrows.blamed, ?_⟩
    intro k hk
    obtain ⟨c, hc, rfl⟩ := mem_assigned hmount hk
    have hkey := hpromised hnil _ (List.mem_map_of_mem hc) _ rfl
    have hsettled : _ ∈ l'.promised ++ l'.settled := List.mem_append_left _ hkey
    exact ⟨hsettled, fun _ => List.mem_append_left _ hsettled⟩

theorem reportLoss_eq_nil {assigned fetched : Nat} {errors : List String}
    (h : reportLoss assigned fetched errors = []) : errors = [] := by
  unfold reportLoss at h
  dsimp only at h
  split at h
  · exact absurd h (by simp)
  · exact h

theorem runBroadcastShard_told (req : BroadcastShardRequest) :
    (runBroadcastShard cfg req).Sat (protocol cfg) {} fun resp l =>
      (answers cfg).post (.runBroadcastShard req) (.broadcastShard resp) l := by
  unfold runBroadcastShard
  split
  · intro herr
    cases herr
  · rename_i mount hmount
    refine Program.Sat.bind (collect_told joinError _) ?_
    rintro got l' ⟨hgrows, hpromised⟩
    apply drain_told
    intro herr
    refine ⟨hgrows.blamed, ?_⟩
    intro k hk
    obtain ⟨c, hc, rfl⟩ := mem_assigned hmount hk
    obtain ⟨src, hsrc, hc⟩ := List.mem_flatMap.mp hc
    -- every chunk of a source is pulled in some round
    have hpull : pullOf cfg.base64Decode src c ∈ broadcastPulls cfg.base64Decode req := by
      apply (broadcastPulls_perm cfg.base64Decode req).mem_iff.mpr
      exact List.mem_flatMap.mpr ⟨src, hsrc, List.mem_map_of_mem hc⟩
    have hkey := hpromised (reportLoss_eq_nil herr) _ (List.mem_map_of_mem hpull) _ rfl
    exact ⟨List.mem_append_left _ hkey, nofun⟩

theorem runRingStep_told (req : RingStepRequest) :
    (runRingStep cfg req).Sat (protocol cfg) {} fun resp l =>
      (answers cfg).post (.runRingStep req) (.ringStep resp) l := by
  unfold runRingStep
  split
  · intro herr
    cases herr
  · rename_i mount hmount
    split
    · intro herr
      cases herr
    · refine Program.Sat.bind (collect_told _ _) ?_
      rintro got l' ⟨hgrows, hpromised⟩
      apply drain_told
      intro herr
      refine ⟨hgrows.blamed, ?_⟩
      intro k hk
      obtain ⟨c, hc, rfl⟩ := mem_assigned hmount hk
      have hkey := hpromised herr _ (List.mem_map_of_mem hc) _ rfl
      exact ⟨List.mem_append_left _ hkey, nofun⟩

theorem body_answers (j : Job) :
    (body cfg j).Sat (protocol cfg) {} fun v l => (answers cfg).post j v l := by
  cases j with
  | runShard req => exact Program.Sat.bind (runShard_told req) fun _ _ h => h
  | runBroadcastShard req => exact Program.Sat.bind (runBroadcastShard_told req) fun _ _ h => h
  | runRingStep req => exact Program.Sat.bind (runRingStep_told req) fun _ _ h => h

end Programs

/-! ## Every run -/

section Runs

variable {cfg : NodeConfig} {t0 t : Nat} {j : Job} {ws : Views (protocol cfg)}
  {v v' : View (protocol cfg)}

namespace Ledger

/-- A step of one thread. Who has been told of failures stays told. -/
theorem move (h : Ledger cfg t0 j s ws) (hv : ws t = some v)
    (hblamed : Tally.blamed v.loc = true → Tally.blamed v'.loc = true)
    (hstep : Sources (j.assigned cfg) j.takesFailures s →
      (∀ u w, ws u = some w → Backed (j.assigned cfg) j.takesFailures s w.loc) →
      StepOk (j.assigned cfg) j.takesFailures s s' v'.loc) :
    Ledger cfg t0 j s' (Function.update ws t (some v')) := by
  rcases h with ⟨w, hw, hb⟩ | ⟨hsources, hbacked⟩
  · refine .inl ?_
    by_cases htt : t0 = t
    · subst htt
      cases hv.symm.trans hw
      exact ⟨v', by simp, hblamed hb⟩
    · exact ⟨w, by rw [Function.update_of_ne htt, hw], hb⟩
  · have hok := hstep hsources hbacked
    refine .inr ⟨hok.sources, ?_⟩
    intro u w hw
    rcases update_eq_some hw with ⟨-, rfl⟩ | ⟨-, hw⟩
    · exact hok.backed
    · exact hok.preserves.backed (hbacked u w hw)

theorem birth (h : Ledger cfg t0 j s ws) (ht : ws t = none)
    (hinit : v'.loc = ({} : Tally)) : Ledger cfg t0 j s (Function.update ws t (some v')) := by
  rcases h with ⟨w, hw, hb⟩ | ⟨hsources, hbacked⟩
  · exact .inl ⟨w, update_of_free ht hw, hb⟩
  · refine .inr ⟨hsources, ?_⟩
    intro u w hw
    rcases update_eq_some hw with ⟨-, rfl⟩ | ⟨-, hw⟩
    · rw [hinit]
      exact .init
    · exact hbacked u w hw

/-- A step that leaves the state alone. -/
theorem stay (h : Ledger cfg t0 j s ws) (hv : ws t = some v)
    (hblamed : Tally.blamed v.loc = true → Tally.blamed v'.loc = true)
    (hbacked : (∀ u w, ws u = some w → Backed (j.assigned cfg) j.takesFailures s w.loc) →
      Backed (j.assigned cfg) j.takesFailures s v'.loc) :
    Ledger cfg t0 j s (Function.update ws t (some v')) :=
  h.move hv hblamed fun hsources hall => ⟨.of_eq rfl rfl, hsources, hbacked hall⟩

/-- What an awaited job promises or has stored is passed on. -/
theorem join {h : Handle (Node.effect.extend effect)} {w : View (protocol cfg)}
    {x : Node.Val ⊕ Val} (hL : Ledger cfg t0 j s ws) (hv : ws t = some v)
    (hw : ws h.tid = some w) (hpost : (protocol cfg).post h.job x w.loc) :
    Ledger cfg t0 j s (Function.update ws t (some (v.joined h (some x)))) := by
  obtain ⟨tid, job⟩ := h
  cases job with
  | inr i => exact hL.stay hv id fun hall => hall t v hv
  | inl i =>
      cases x with
      | inr x => exact hpost.elim
      | inl x =>
          refine hL.stay hv (fun hb => hb) fun hall => ?_
          obtain ⟨hgrants, hstores⟩ := hpost
          have hme := hall t v hv
          have hchild := hall tid w hw
          have hpromised : ∀ k ∈ (i.grants x).toList, k ∈ j.assigned cfg →
              Secured j.takesFailures s k :=
            fun k hk => hchild.promised k (hgrants k (Option.mem_toList.mp hk))
          have hsettled : ∀ k ∈ (i.inserts x).toList, k ∈ j.assigned cfg →
              Over j.takesFailures s k :=
            fun k hk hA => .inl (hchild.landed k (hstores k (Option.mem_toList.mp hk)) hA)
          exact (hme.promise _ hpromised).settle _ hsettled

theorem nodeOp {o : Node.Op} {c : Choice} {r : o.Resp} (hL : Ledger cfg t0 j s ws)
    (hv : ws t = some v) (hpre : promisePre v.loc o)
    (hG : ∀ q, o = .fetch q → Permitted (j.assigned cfg) j.takesFailures s q)
    (hex : Node.exec cfg t o c s = some (r, s')) :
    Ledger cfg t0 j s' (Function.update ws t (some { v with loc := Tally.next v.loc o r })) := by
  refine hL.move hv (fun hb => (Tally.Grows.next v.loc o r).blamed.trans hb) ?_
  intro hsources hall
  have hme := hall t v hv
  cases o with
  | disk o =>
      obtain ⟨hdisk, -, hfetch⟩ := exec_disk hex
      exact disk_sound hsources hme hdisk hfetch
  | fetch o =>
      obtain ⟨hfetch, hdisk, -⟩ := exec_fetch hex
      exact fetch_sound hsources hme hfetch hdisk hpre (hG o rfl)
  | index o =>
      obtain ⟨-, hdisk, hfetch⟩ := exec_index hex
      exact idle_sound hsources hme hdisk hfetch
  | snapshotKeys =>
      obtain ⟨-, hdisk, hfetch, -⟩ := exec_snapshotKeys hex
      exact idle_sound hsources hme hdisk hfetch

theorem take (hL : Ledger cfg t0 j s ws) (hv : ws t = some v)
    (hG : j.takesFailures = false ∨ t = t0 ∨ ∀ k ∈ j.assigned cfg, ¬ Noted s k) :
    Ledger cfg t0 j (withoutFailures s) (Function.update ws t
      (some { v with loc := taken v.loc s.fetch.insertFailures })) := by
  cases hfail : s.fetch.insertFailures with
  | nil =>
      refine hL.move hv (fun hb => hb) ?_
      intro hsources hall
      have hpres : Preserves (j.assigned cfg) j.takesFailures s (withoutFailures s) :=
        take_preserves (.inr fun k _ => not_noted hfail k)
      have hme := hpres.backed (hall t v hv)
      refine ⟨hpres, take_sources hsources hpres, hme.land _ ?_⟩
      intro k hk hA
      exact (hme.settled k hk hA).resolve_right fun hnoted => not_noted rfl k hnoted.2
  | cons f fs =>
      by_cases htt : t = t0
      · -- from now on the thread is to blame
        subst htt
        exact .inl ⟨_, Function.update_self .., rfl⟩
      · refine hL.move hv (fun _ => rfl) ?_
        intro hsources hall
        have hpres : Preserves (j.assigned cfg) j.takesFailures s (withoutFailures s) :=
          take_preserves (hG.imp_right fun h => h.resolve_left htt)
        have hme := hpres.backed (hall t v hv)
        exact ⟨hpres, take_sources hsources hpres, { hme with }⟩

/-- A lost thread broadcasts at most an error. -/
theorem cancel (hL : Ledger cfg t0 j s ws) (hv : ws t = some v) :
    Ledger cfg t0 j { s with fetch := s.fetch.dropGuard t }
      (Function.update ws t (some v.dead)) := by
  refine hL.move hv (fun hb => hb) ?_
  intro hsources hall
  have hslots := FetchState.dropGuard_slots hsources.mapped t
  obtain ⟨hwrites, hfail, hlru⟩ := FetchState.dropGuard_frame s.fetch t
  have hpres : Preserves (j.assigned cfg) j.takesFailures s
      { s with fetch := s.fetch.dropGuard t } := by
    refine ⟨fun k hk => hk, ?_, ?_, hslots.keeps⟩
    · intro _ k _ hk
      rw [Noted, hfail]
      exact hk
    · intro k _ hk
      rw [Secured, hwrites]
      exact .inl hk
  refine ⟨hpres, hsources.step hpres hsources.index ?_ hslots ?_, hpres.backed (hall t v hv)⟩
  · intro k hA
    rw [FetchState.lruHas, hlru]
    exact hsources.lru k hA
  · intro k d hsend
    cases hsend

end Ledger

theorem ledger_sound (t0 : Nat) (j : Job) :
    Conc.Sound (protocol cfg) (Accounted cfg t0 j) (Ledger cfg t0 j) where
  body i hi := by
    cases i with
    | inl i => exact Program.Sat.body_inl (body_told i)
    | inr i => exact Program.Sat.body_inr (body_answers i)
  start {s ws t i} hL ht _ _ := by
    cases i with
    | inl i | inr i => exact ⟨trivial, hL.birth ht rfl⟩
  op {s ws t v o c r s'} hL hv hpre hG hex := by
    cases o with
    | inl o =>
        refine ⟨trivial, hL.nodeOp hv hpre ?_ hex⟩
        rintro q rfl
        exact hG
    | inr o =>
        cases o with
        | takeInsertFailures =>
            cases hex
            exact ⟨trivial, hL.take hv hG⟩
  spawn {s ws t v u i} hL hv hu _ hpre _ := by
    have hfree (w : View (protocol cfg)) : Function.update ws t (some w) u = none := by
      rw [Function.update_of_ne, hu]
      rintro rfl
      cases hu.symm.trans hv
    cases i with
    | inl i => exact (hL.stay hv (fun hb => hb) fun hall => hall t v hv).birth (hfree _) rfl
    | inr i => exact hpre.elim
  join hL hv hw _ hpost := hL.join hv hw hpost
  lost {s ws t v h w l} hL hv _ _ _ := by
    obtain ⟨tid, job⟩ := h
    cases job with
    | inl i | inr i => exact hL.stay hv (fun hb => hb) fun hall => hall t v hv
  cancel hL hv _ _ := hL.cancel hv

theorem Ledger.new (t0 : Nat) (j : Job) : Ledger cfg t0 j (State.new cfg) fun _ => none := by
  refine .inr ⟨⟨?_, ?_, ?_, ?_⟩, ?_⟩
  · intro k hk
    exact absurd rfl hk
  · intro k _
    simp only [FetchState.lruHas, State.new, FetchState.new]
    split <;> rfl
  · intro k i hk
    cases hk
  · intro i slot d hslot
    cases hslot
  · intro t v hv
    cases hv

/-- What a worker promises with a response without errors is in the books. -/
theorem Ledger.stored {s : State} {ws : Views (protocol cfg)} {w : View (protocol cfg)} {resp : Val}
    (hL : Ledger cfg t0 j s ws) (hw : ws t0 = some w)
    (hpost : (protocol cfg).post (.inr j) (.inr resp) w.loc) (hnone : resp.errors = [])
    {k : ChunkKey} (hk : k ∈ j.assigned cfg) : Stored s k := by
  obtain ⟨hblamed, hknown⟩ := hpost hnone
  rcases hL with ⟨w', hw', hb⟩ | ⟨-, hbacked⟩
  · cases hw.symm.trans hw'
    rw [hblamed] at hb
    cases hb
  · obtain ⟨hsettled, hlanded⟩ := hknown k hk
    have hme := hbacked t0 w hw
    cases htakes : j.takesFailures with
    | true => exact hme.landed k (hlanded htakes) hk
    | false =>
        rcases hme.settled k hsettled hk with hin | ⟨hlisted, -⟩
        · exact hin
        · rw [htakes] at hlisted
          cases hlisted

/-- A response without errors means that every assigned chunk has been stored,
in every run whose steps are all accounted for. -/
theorem stored_of_no_errors {c : Config (machine cfg)} {resp : Val}
    (hrun : Config.Reach (Accounted cfg t0 j) (.init (State.new cfg)) c)
    (hjob : c.job t0 = some (.inr j)) (hresp : response cfg c t0 = some resp)
    (hnone : resp.errors = []) : ∀ k ∈ j.assigned cfg, Stored c.state k := by
  obtain ⟨ws, hA, hL⟩ := (ledger_sound t0 j).reach (Ledger.new t0 j) hrun
  obtain ⟨th, hth, hthjob⟩ := Option.map_eq_some_iff.mp hjob
  obtain ⟨w, hw, hok⟩ := hA.thread t0 th hth
  have hpost : (protocol cfg).post (.inr j) (.inr resp) w.loc := by
    have hstatus := hok.status
    rw [← hthjob, hok.job]
    unfold response at hresp
    rw [hth] at hresp
    split at hresp <;> cases hresp
    all_goals
      rename_i heq
      cases heq
      exact hstatus
  intro k hk
  exact hL.stored hw hpost hnone hk

end Runs

/-- `n` steps of thread `t` in which the environment does nothing special. -/
def workerTurns {cfg : NodeConfig} (t n : Nat) : List (Label (machine cfg)) :=
  List.replicate n (.run t Choice.benign)

def sampleChunk : ChunkSpec := ⟨"b", 0, 4⟩

def sampleShard : Job := .runShard ⟨"m", [sampleChunk]⟩

def sampleRingStep : Job := .runRingStep ⟨"m", 1, "a", "a", "", none, [sampleChunk]⟩

/-- The task of the shard fetches the chunk from the origin; it is stored before the
worker looks at the writes in flight. -/
def shardTurns {cfg : NodeConfig} (j : Job) : List (Label (machine cfg)) :=
  [.start (.inr j)] ++ workerTurns 0 1 ++ workerTurns 1 3 ++ workerTurns 2 3 ++
    workerTurns 1 3 ++
    [.run 1 { Choice.benign with
      fetch := { Choice.benign.fetch with origin := .ok [1, 2, 3, 4] } }] ++ workerTurns 1 5 ++
    workerTurns 3 1 ++ workerTurns 4 7 ++ workerTurns 3 6 ++ workerTurns 0 3

def shardGate {cfg : NodeConfig} (_ : State) : Event (machine cfg) → Bool
  | .op _ (.inl (.fetch (.lruPut _ _))) _ | .op _ (.inl (.fetch .writesClear)) _
  | .op _ (.inl (.fetch (.recordInsertFailure _ _))) _ => false
  | .op t (.inr _) _ => t == 0
  | _ => true

/-- The peer delivers the chunk, the insert fails with an I/O error, and the
worker waits for it. -/
def ringTurns : List (Label (machine sampleConfig)) :=
  [.start (.inr sampleRingStep)] ++ workerTurns 0 1 ++ workerTurns 1 2 ++
    [.run 1 { Choice.benign with
      fetch := { Choice.benign.fetch with peer := .ok [1, 2, 3, 4] } }] ++ workerTurns 1 3 ++
    workerTurns 2 1 ++ workerTurns 3 1 ++
    [.run 3 { Choice.benign with disk := { DiskChoice.benign with ioError := true } }] ++
    workerTurns 3 1 ++ workerTurns 2 4 ++ workerTurns 0 2

theorem accounted_of_gate {cfg : NodeConfig} {t0 : Nat} {j : Job}
    (hj : j.takesFailures = false ∨ t0 = 0) (s : State) (e : Event (machine cfg))
    (h : shardGate s e = true) : Accounted cfg t0 j s e := by
  cases e with
  | op t o c =>
      cases o with
      | inr o =>
          cases o
          exact hj.imp_right fun ht => .inl ((beq_iff_eq.mp h).trans ht.symm)
      | inl o =>
          cases o with
          | fetch o =>
              cases o with
              | lruPut => cases h
              | writesClear => cases h
              | recordInsertFailure => cases h
              | _ => trivial
          | _ => trivial
  | _ => trivial

theorem stored_of_no_errors_of_shard :
    ∃ c, Config.Reach (Accounted sampleConfig 0 sampleShard) (.init (State.new sampleConfig)) c ∧
      response sampleConfig c 0 = some (.shard ⟨1, 4, []⟩) ∧ Stored c.state (sampleKey 0) := by
  obtain ⟨c, hrun, hc⟩ := Config.reach_of_replay (accounted_of_gate (.inr rfl))
    (.init (State.new sampleConfig)) (shardTurns sampleShard)
    (fun c => decide (c.job 0 = some (.inr sampleShard)) &&
      decide (response sampleConfig c 0 = some (.shard ⟨1, 4, []⟩))) (by decide +kernel)
  simp only [Bool.and_eq_true, decide_eq_true_eq] at hc
  refine ⟨c, hrun, hc.2, ?_⟩
  exact stored_of_no_errors hrun hc.1 hc.2 rfl (sampleKey 0) (by decide +kernel)

/-- The response of a ring step has no errors although the only insert of its
chunk has failed. -/
theorem ring_step_hides_failed_insert :
    ∃ c : Config (machine sampleConfig),
      Config.Reach (fun _ _ => True) (.init (State.new sampleConfig)) c ∧
      c.job 0 = some (.inr sampleRingStep) ∧
      response sampleConfig c 0 = some (.ringStep ⟨1, 4, []⟩) ∧
      sampleKey 0 ∈ sampleRingStep.assigned sampleConfig ∧ ¬ Stored c.state (sampleKey 0) := by
  obtain ⟨c, hrun, hc⟩ := Config.reach_of_labels (.init (State.new sampleConfig)) ringTurns
    (fun c => decide (c.job 0 = some (.inr sampleRingStep)) &&
      decide (response sampleConfig c 0 = some (.ringStep ⟨1, 4, []⟩)) &&
      decide (c.state.disk.lastInsert.keys = [])) (by decide +kernel)
  simp only [Bool.and_eq_true, decide_eq_true_eq] at hc
  obtain ⟨⟨hjob, hresp⟩, hempty⟩ := hc
  refine ⟨c, hrun, hjob, hresp, by decide +kernel, not_not.mpr ?_⟩
  apply FinMap.not_mem_keys_iff.mp
  rw [hempty]
  exact List.not_mem_nil

end BlobCache.Hydrate
