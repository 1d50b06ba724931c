import BlobCache.Node.Lineage
import BlobCache.Node.Replay

/-!
Lengths, without any assumption on what peers and the origin send. A caller
gets the length it asked for or an error, and nothing of another length
reaches `inflight_writes`, the LRU of peer chunks or the disk on its behalf.
-/

namespace BlobCache.Node

open Cache Conc

/-- Anything may be sent, anything may fail, and file names may collide. -/
def anyEnv (cfg : NodeConfig) : Env cfg where
  keys := Set.univ
  good _ _ := True
  shared _ _ _ _ _ _ _ := trivial
  net := True
  originErr := True
  peerHit := True
  ioErr := True

/-- The length that the data of a successful call has to have. -/
def Job.resultLen : Job → Option Nat
  | .fetchChunk _ _ _ expectedLen | .fetchChunkOriginOnly _ _ _ expectedLen
  | .pullChunkFromPeerWait _ _ _ expectedLen _ _ _ _ | .servePeerChunk _ expectedLen _ =>
      some expectedLen
  | .fetchRange _ _ offset length fileSize => some (min (offset + length) fileSize - offset)
  | _ => none

/-- The data that a call returned. -/
def Val.data? : Val → Option Bytes
  | .fetched (.ok d) => some d
  | .served r => r
  | _ => none

section

variable {cfg : NodeConfig} {env : Env cfg}

theorem rangeOk_length {k : ChunkKey} {offset len : Nat} {b : Bytes}
    (h : env.rangeOk k offset len b) : b.length = len := by
  rcases h with ⟨hlen, hb⟩ | ⟨d, -, hle, hb⟩
  · simp [hb, hlen]
  · rw [hb, slice_length hle]
    omega

/-- What is taken of the chunks adds up to the range. -/
theorem takeLen_sum {offset stop fileSize : Nat} (hcs : 0 < cfg.chunkSize) (hlt : offset < stop)
    (hstop : stop ≤ fileSize) (hmax : fileSize ≤ u64Max) :
    ((rangeOffsets cfg offset stop).map (takeLen cfg offset stop fileSize)).sum =
      stop - offset := by
  -- measured on a blob of the right size, whose content does not matter
  have hcover := congrArg List.length
    (rangeOffsets_cover (List.replicate fileSize 0) hcs hlt hstop hmax)
  rw [List.length_flatMap, slice_length (by simpa using hstop)] at hcover
  rw [← hcover]
  refine congrArg List.sum (List.map_congr_left fun x hx => ?_)
  obtain ⟨-, -, hb⟩ := take_bounds (rangeOffsets_mem hlt hx).1 (rangeOffsets_near hcs hx)
    hlt hstop
  rw [slice_length]
  · omega
  · simp only [List.length_take, List.length_drop, List.length_replicate]
    omega

theorem piecesOk_length {mount : MountConfig} {blob : String} {offset stop fileSize : Nat}
    {out : Bytes} (hcs : 0 < cfg.chunkSize) (hlt : offset < stop) (hstop : stop ≤ fileSize)
    (hmax : fileSize ≤ u64Max) (h : env.piecesOk mount blob offset stop fileSize out) :
    out.length = stop - offset := by
  obtain ⟨pieces, rfl, hoffsets, hpieces⟩ := h
  have hlens : pieces.map (fun p => p.2.length) =
      (pieces.map Prod.fst).map (takeLen cfg offset stop fileSize) := by
    rw [List.map_map]
    exact List.map_congr_left fun p hp => rangeOk_length (hpieces p.1 p.2 hp)
  rw [List.length_flatMap, hlens, hoffsets]
  exact takeLen_sum hcs hlt hstop hmax

/-- A value that meets the specification of its job has the right length. -/
theorem valueOk_length {l : Loc} {j : Job} {v : Val} {n : Nat} {d : Bytes} (hok : env.jobOk j)
    (h : env.valueOk l j v) (hn : j.resultLen = some n) (hd : v.data? = some d) :
    d.length = n := by
  cases j with
  | fetchChunk mount blob offset expectedLen
  | fetchChunkOriginOnly mount blob offset expectedLen | servePeerChunk key expectedLen waitMs =>
      obtain ⟨r, rfl, hr⟩ := h
      cases r <;> cases hd
      cases hn
      exact hr.2
  | pullChunkFromPeerWait mount blob offset expectedLen peerId url addr waitMs =>
      obtain ⟨r, rfl, hr⟩ := h
      cases r <;> cases hd
      cases hn
      exact (hr _ rfl).2
  | fetchRange mount blob offset length fileSize =>
      obtain ⟨r, rfl, hr⟩ := h
      cases r <;> cases hd
      cases hn
      obtain ⟨-, hcs, hmax, -⟩ := hok
      have hstop : min (saturatingAdd offset length) fileSize = min (offset + length) fileSize := by
        simp only [saturatingAdd]
        omega
      rcases hr _ rfl with ⟨hnone, rfl⟩ | ⟨hlt, hpieces⟩
      · simp only [hstop] at hnone
        simp only [List.length_nil]
        omega
      · simp only [hstop] at hlt hpieces
        exact piecesOk_length hcs hlt (by omega) hmax hpieces
  | _ => cases hn

/-- The value that an operation puts into a store, by its length: into
`inflight_writes`, into the LRU, under its name in the cache directory and
into the index of the disk cache. -/
def put (s : State) : Op → Option (ChunkKey × Nat)
  | .fetch (.writesInsert key data) | .fetch (.lruPut key data) => some (key, data.length)
  | .disk (.rename tmp key) => (s.disk.dir.file tmp).map fun data => (key, data.length)
  | .disk (.insertSection key size) => some (key, size)
  | _ => none

/-- The request that a thread works for. An `insert` works for the request
that started the task it belongs to, unless it was called from outside. -/
def requester (c : Config (machine cfg)) (t : Nat) : Option Nat :=
  match c.threads[t]? with
  | none => none
  | some th =>
      match th.job with
      | .insert _ _ => (th.parent.bind fun p => c.threads[p]?).bind Thread.parent
      | _ => some t

variable {c c' : Config (machine cfg)} {ws : Views (discipline env)} {t q : Nat}

theorem requester_self {th : Thread effect} {n : Nat} (hth : c.threads[t]? = some th)
    (hlen : Job.expectedLen th.job = some n) (hq : requester c t = some q) : q = t := by
  simp only [requester, hth] at hq
  split at hq
  · rename_i k d hjob
    rw [hjob] at hlen
    cases hlen
  · exact (Option.some.inj hq).symm

/-- The request behind an `insert` asked for the length that is inserted. -/
theorem requester_insert {th : Thread effect} {k : ChunkKey} {d : Bytes}
    (hA : Agree (discipline env) c.threads ws) (hL : Lineage ws) (hth : c.threads[t]? = some th)
    (hjob : th.job = .insert k d) (hq : requester c t = some q) :
    ∃ j, c.job q = some j ∧ Job.expectedLen j = some d.length := by
  obtain ⟨v, hv, hok⟩ := hA.thread t th hth
  simp only [requester, hth, hjob] at hq
  obtain ⟨thp, hthp, hparent⟩ := Option.bind_eq_some_iff.mp hq
  obtain ⟨p, hp, hthp⟩ := Option.bind_eq_some_iff.mp hthp
  obtain ⟨w, hw, hwjob, -⟩ :=
    hL.insert t v k d p hv (hok.job.symm.trans hjob) (hok.parent.symm.trans hp)
  obtain ⟨thp', hthp', hokp⟩ := hA.of_view hw
  rw [hthp] at hthp'
  cases hthp'
  obtain ⟨q', x, hq', hx, hlen⟩ := hL.task p w k d hw hwjob
  rw [← hokp.parent, hparent] at hq'
  cases hq'
  obtain ⟨thq, hthq, hokq⟩ := hA.of_view hx
  exact ⟨x.job, by simp [Config.job, hthq, hokq.job], hlen⟩

/-- Whatever is put into a store has the length that its request asked for. -/
theorem put_length {lbl : Label (machine cfg)} {o : Op} {ch : Choice} {k : ChunkKey} {n : Nat}
    (hA : Agree (discipline env) c.threads ws) (hC : Core env c.state ws) (hL : Lineage ws)
    (hstep : c.step lbl = some (.op t o ch, c')) (hput : put c.state o = some (k, n))
    (hq : requester c t = some q) :
    ∃ j, c.job q = some j ∧ Job.expectedLen j = some n := by
  obtain ⟨th, v, hth, hv, hok, hpre⟩ := hA.pre_of_step hstep
  have hjob : Loc.job v.loc = th.job := (hC.job t v hv).1.trans hok.job.symm
  have hself {d : Bytes} (hlen : Job.expectedLen (Loc.job v.loc) = some d.length) :
      ∃ j, c.job q = some j ∧ Job.expectedLen j = some d.length := by
    rw [hjob] at hlen
    rw [requester_self hth hlen hq]
    exact ⟨th.job, by simp [Config.job, hth], hlen⟩
  cases o with
  | fetch o =>
      cases o with
      | writesInsert key data | lruPut key data =>
          cases hput
          exact hself hpre.2.2
      | _ => cases hput
  | disk o =>
      cases o with
      | rename tmp key =>
          obtain ⟨fd, data, hinsert, hfile, -, -⟩ := hpre
          obtain ⟨d, hd, heq⟩ := Option.map_eq_some_iff.mp hput
          cases heq
          -- the file under the temporary name is the one that the thread wrote
          have hown := hC.files.thread t
          rw [filesOf_eq hv, hfile] at hown
          obtain ⟨fd', hfd', rfl⟩ := Option.map_eq_some_iff.mp hd
          rw [hown.1.own fd' hfd', hown.2]
          exact requester_insert hA hL hth (hjob.symm.trans hinsert) hq
      | insertSection key size =>
          obtain ⟨data, hinsert, -, hsize, -⟩ := hpre
          cases hput
          rw [hsize]
          exact requester_insert hA hL hth (hjob.symm.trans hinsert) hq
      | _ => cases hput
  | _ => cases hput

/-- Callers get the length they asked for, and so do the stores. -/
theorem lengths_as_requested {c : Config (machine cfg)}
    (hrun : Config.Reach (anyEnv cfg).allowed (.init (State.new cfg)) c) :
    (∀ t j n v d, c.job t = some j → j.resultLen = some n → c.result t = some v →
      v.data? = some d → d.length = n) ∧
    ∀ lbl t o ch c' k n q, c.step lbl = some (.op t o ch, c') → put c.state o = some (k, n) →
      requester c t = some q → ∃ j, c.job q = some j ∧ Job.expectedLen j = some n := by
  obtain ⟨ws, hA, hC, hL⟩ := lineage_reach (Env.allowed_respects fun _ _ h => h)
    (Settled.new (anyEnv cfg)) hrun
  constructor
  · intro t j n v d hjob hn hdone hd
    obtain ⟨l, -, -, hok, hval⟩ := value_of_done hA hC hjob hdone
    exact valueOk_length hok hval hn hd
  · intro lbl t o ch c' k n q hstep hput hq
    exact put_length hA hC hL hstep hput hq

end

/-- The origin first sends a byte too many. -/
def shortSchedule : List (Label (machine sampleConfig)) :=
  [.start (.fetchChunk sampleMount "b" 4096 4)] ++ missTurns 0 1 ++
    [originTurn 0 [1, 2, 3, 4, 5]] ++ turns 0 2 ++
    [.start (.fetchChunk sampleMount "b" 4096 4)] ++ missTurns 2 3 ++
    [originTurn 2 [1, 2, 3, 4]] ++ turns 2 5

theorem lengths_as_requested_after_long_answer :
    ∃ c : Config (machine sampleConfig),
      Config.Reach (anyEnv sampleConfig).allowed (.init (State.new sampleConfig)) c ∧
      (c.result 0).bind Val.data? = none ∧
      ∃ d, c.result 2 = some (.fetched (.ok d)) ∧ d.length = 4 := by
  have hstart (j : Job) (hj : decide (j = .fetchChunk sampleMount "b" 4096 4) = true) :
      (anyEnv sampleConfig).jobOk j := by
    rw [of_decide_eq_true hj]
    exact ⟨trivial, trivial⟩
  obtain ⟨c, hrun, hc⟩ := Config.reach_of_replay
    (gate_allowed _ (fun _ _ => true) hstart fun _ _ _ => trivial)
    (.init (State.new sampleConfig)) shortSchedule
    (fun c => decide (c.job 2 = some (.fetchChunk sampleMount "b" 4096 4)) &&
      decide ((c.result 0).bind Val.data? = none) &&
      decide (c.result 2 = some (.fetched (.ok [1, 2, 3, 4]))))
    (by decide +kernel)
  simp only [Bool.and_eq_true, decide_eq_true_eq] at hc
  exact ⟨c, hrun, hc.1.2, [1, 2, 3, 4], hc.2,
    (lengths_as_requested hrun).1 2 _ 4 _ _ hc.1.1 rfl hc.2 rfl⟩

end BlobCache.Node
