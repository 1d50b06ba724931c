import BlobCache.Node.Directory

/-!
Cache hits. Readers look at the index, then at the file, then at the index
again, while inserts, evictions, removals and clears go on. A file gets the name
of a chunk only when it is complete, and an open file is not affected by a
rename over its name or by an unlink, so a hit is the payload of one insert of
the key, or a part of it.
-/

namespace BlobCache.Node

open Cache Conc

variable {cfg : NodeConfig} {keys : Set ChunkKey}

/-- Only the disk cache's own methods are called; the system may do anything. -/
def callsOnly (keys : Set ChunkKey) : Event (machine cfg) → Prop
  | .start j => Job.cacheOp keys j
  | _ => True

/-- Some call of `insert` had this key and this payload. -/
def Inserted (c : Config (machine cfg)) (k : ChunkKey) (d : Bytes) : Prop :=
  ∃ u, c.job u = some (.insert k d)

theorem callsOnly_respects {c : Config (machine cfg)} (hinj : Set.InjOn cfg.disk.nameOf keys) :
    Respects (cacheEnv cfg keys hinj (Inserted c) True) fun _ e =>
      callsOnly keys e ∧ ∀ j, e = .start j → ∃ u, c.job u = some j where
  start s j hg _ := by
    obtain ⟨hcall, hstarted⟩ := hg
    cases j with
    | insert key data => exact ⟨hcall, hstarted _ rfl⟩
    | _ => first | exact hcall | exact hcall.elim
  disk _ _ _ _ _ := .inl trivial
  peer hnet := hnet.elim
  origin hnet := hnet.elim

/-- In every run of the cache's methods, a hit of `try_get` is the whole
payload of one insert of the key, and a hit of the other two is the part of one
such payload that was asked for. -/
theorem hits_are_inserted (hinj : Set.InjOn cfg.disk.nameOf keys) {c : Config (machine cfg)}
    (hrun : Config.Reach (fun _ => callsOnly keys) (.init (State.new cfg)) c) {t : Nat}
    {k : ChunkKey} :
    (∀ b, c.job t = some (.tryGet k) → c.result t = some (.cached (some b)) →
      Inserted c k b) ∧
    (∀ o n b, 0 < n → c.job t = some (.tryGetRange k o n) →
      c.result t = some (.cached (some b)) →
      ∃ d, Inserted c k d ∧ o + n ≤ d.length ∧ b = slice d o (o + n)) ∧
    (∀ dstLen n dst, c.job t = some (.tryGetIntoSlice k dstLen) →
      c.result t = some (.filled (some (n, dst))) →
      n = dstLen ∧ ∃ d, Inserted c k d ∧ dstLen ≤ d.length ∧ dst = slice d 0 dstLen) := by
  obtain ⟨ws, hA, hC⟩ := core_reach (callsOnly_respects hinj) (Settled.new _)
    (hrun.starts fun _ _ hj => hj)
  refine ⟨?_, ?_, ?_⟩
  · intro b hjob hdone
    obtain ⟨l, -, -, -, r, hr, hval⟩ := value_of_done hA hC hjob hdone
    cases hr
    exact hval b rfl
  · intro o n b hn hjob hdone
    obtain ⟨l, -, -, -, r, hr, hval⟩ := value_of_done hA hC hjob hdone
    cases hr
    rcases hval b rfl with ⟨hzero, -⟩ | hpart
    · omega
    · exact hpart
  · intro dstLen n dst hjob hdone
    obtain ⟨l, -, -, -, r, hr, hval⟩ := value_of_done hA hC hjob hdone
    cases hr
    obtain ⟨hn, d, hd, hle, hdst⟩ := hval n dst rfl
    rw [Nat.zero_add] at hle hdst
    exact ⟨hn, d, hd, hle, hdst⟩

/-- A read of an empty range. -/
def emptyRead : effect.Job := Job.tryGetRange (sampleKey 0) 7 0

/-- The calls of the sample runs. -/
def readerCalls : List effect.Job :=
  [.insert (sampleKey 0) [1, 2, 3, 4], .insert (sampleKey 0) [5, 6],
    .tryGetRange (sampleKey 0) 1 2, emptyRead]

def callsGate (_ : State) : Event (machine sampleConfig) → Bool
  | .start j => readerCalls.contains j
  | _ => true

theorem callsOnly_of_gate {s : State} {e : Event (machine sampleConfig)}
    (h : callsGate s e = true) : callsOnly sampleKeys e := by
  cases e with
  | start j =>
      have hmem : j ∈ readerCalls := List.contains_iff_mem.mp h
      rcases List.mem_cons.mp hmem with rfl | hmem
      · exact .inl rfl
      rcases List.mem_cons.mp hmem with rfl | hmem
      · exact .inl rfl
      rcases List.mem_cons.mp hmem with rfl | hmem
      · exact .inl rfl
      rw [List.mem_singleton.mp hmem]
      exact .inl rfl
  | _ => trivial

/-- A reader has opened the file when a shorter payload replaces it. -/
def replacedSchedule : List (Label (machine sampleConfig)) :=
  [.start (.insert (sampleKey 0) [1, 2, 3, 4])] ++ turns 0 7 ++
    [.start (.tryGetRange (sampleKey 0) 1 2)] ++ turns 1 2 ++
    [.start (.insert (sampleKey 0) [5, 6])] ++ turns 2 7 ++ turns 1 4

theorem hits_are_inserted_during_replacement :
    ∃ c : Config (machine sampleConfig),
      c.result 1 = some (.cached (some [2, 3])) ∧
      ∃ d, Inserted c (sampleKey 0) d ∧ 1 + 2 ≤ d.length ∧ [2, 3] = slice d 1 (1 + 2) := by
  obtain ⟨c, hrun, hc⟩ := Config.reach_of_replay (G := callsGate)
    (H := fun _ => callsOnly sampleKeys) (fun _ _ => callsOnly_of_gate)
    (.init (State.new sampleConfig)) replacedSchedule
    (fun c => decide (c.job 1 = some (.tryGetRange (sampleKey 0) 1 2)) &&
      decide (c.result 1 = some (.cached (some [2, 3])))) (by decide +kernel)
  obtain ⟨hjob, hdone⟩ := Bool.and_eq_true_iff.mp hc
  have hdone := of_decide_eq_true hdone
  exact ⟨c, hdone, (hits_are_inserted sampleKeys_injOn hrun).2.1 1 2 [2, 3] (by decide)
    (of_decide_eq_true hjob) hdone⟩

/-- An empty range is a hit although nothing was ever inserted. -/
theorem empty_range_hits_without_insert :
    Set.InjOn sampleConfig.disk.nameOf sampleKeys ∧
    ∃ c : Config (machine sampleConfig),
      Config.Reach (fun _ => callsOnly sampleKeys) (.init (State.new sampleConfig)) c ∧
      c.job 0 = some emptyRead ∧
      c.result 0 = some (.cached (some [])) ∧ ∀ d, ¬ Inserted c (sampleKey 0) d := by
  obtain ⟨c, hrun, hc⟩ := Config.reach_of_replay (G := callsGate)
    (H := fun _ => callsOnly sampleKeys) (fun _ _ => callsOnly_of_gate)
    (.init (State.new sampleConfig))
    ([.start emptyRead] ++ turns 0 1)
    (fun c => decide (c.threads.map Thread.job = [emptyRead]) &&
      decide (c.result 0 = some (.cached (some [])))) (by decide +kernel)
  obtain ⟨hjobs, hdone⟩ := Bool.and_eq_true_iff.mp hc
  have hjobs : c.threads.map Thread.job = [emptyRead] := of_decide_eq_true hjobs
  refine ⟨sampleKeys_injOn, c, hrun, ?_, of_decide_eq_true hdone, ?_⟩
  · rw [Config.job, ← List.getElem?_map, hjobs]
    rfl
  · rintro d ⟨u, hu⟩
    rw [Config.job, ← List.getElem?_map, hjobs] at hu
    cases List.mem_singleton.mp (List.mem_of_getElem? hu)

end BlobCache.Node
