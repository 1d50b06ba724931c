import BlobCache.Conc.Solo
import BlobCache.Node.Advertise

/-!
What a rebuild advertises. The filter that `rebuild_local_from_cache` swaps in
has the digests of the live keys and, besides, everything that was pending.
Nothing takes a digest out of the overlay when its key is evicted, lost or
cleared, so the filter is exact only when the overlay adds nothing.
-/

namespace BlobCache.Node

open Cache Conc

variable {cfg : NodeConfig}

section Alone

variable {t : Nat} {free : Prop} {s : State} {α : Type} {Q : α → State → Prop}

theorem alone_disk {o : DiskOp} {f : o.Resp → NodeM α}
    (hf : ∀ r d c, s.disk.exec cfg.disk t c o = (r, d) →
      (f r).Alone (machine cfg) t free { s with disk := d } Q) :
    (disk o >>= f).Alone (machine cfg) t free s Q := by
  refine Program.Alone.perform_bind (fun _ => ⟨Choice.benign, _, _, rfl⟩) ?_
  intro c r s' hex
  change exec cfg t (.disk o) c s = some (r, s') at hex
  obtain ⟨hd, hindex, hfetch⟩ := exec_disk hex
  obtain ⟨d, i, f'⟩ := s'
  obtain rfl : i = s.index := hindex
  obtain rfl : f' = s.fetch := hfetch
  exact hf r d c.disk hd

theorem alone_index {o : IndexOp} {f : o.Resp → NodeM α}
    (hf : (f (s.index.exec cfg.index t o).1).Alone (machine cfg) t free
      { s with index := (s.index.exec cfg.index t o).2 } Q) :
    (index o >>= f).Alone (machine cfg) t free s Q := by
  refine Program.Alone.perform_bind (fun _ => ⟨Choice.benign, _, _, rfl⟩) ?_
  intro c r s' hex
  change exec cfg t (.index o) c s = some (r, s') at hex
  cases hex
  exact hf

theorem alone_fetch {o : FetchOp} {f : o.Resp → NodeM α}
    (henabled : free → ∃ r f', s.fetch.exec cfg.rdma t Choice.benign.fetch o = some (r, f'))
    (hf : ∀ r f', (f r).Alone (machine cfg) t free { s with fetch := f' } Q) :
    (fetch o >>= f).Alone (machine cfg) t free s Q := by
  refine Program.Alone.perform_bind ?_ ?_
  · intro hfree
    obtain ⟨r, f', hex⟩ := henabled hfree
    refine ⟨Choice.benign, r, { s with fetch := f' }, ?_⟩
    change exec cfg t (.fetch o) Choice.benign s = _
    simp only [exec, hex]
    rfl
  · intro c r s' hex
    change exec cfg t (.fetch o) c s = some (r, s') at hex
    obtain ⟨-, hdisk, hindex⟩ := exec_fetch hex
    obtain ⟨d, i, f'⟩ := s'
    obtain rfl : d = s.disk := hdisk
    obtain rfl : i = s.index := hindex
    exact hf r f'

theorem alone_snapshotKeys {f : List ChunkKey → NodeM α}
    (hf : (f s.disk.inner.entries.keys).Alone (machine cfg) t free
      { s with index := { s.index with
          snapshots := s.index.snapshots.insert t s.disk.inner.entries.keys } } Q) :
    (snapshotKeys >>= f).Alone (machine cfg) t free s Q := by
  refine Program.Alone.perform_bind (fun _ => ⟨Choice.benign, _, _, rfl⟩) ?_
  intro c r s' hex
  change exec cfg t .snapshotKeys c s = some (r, s') at hex
  cases hex
  exact hf

/-- The search for missing files changes nothing. -/
theorem findMissing_alone (keys : List ChunkKey) :
    (findMissing keys).Alone (machine cfg) t free s fun _ s' => s' = s := by
  induction keys with
  | nil => exact rfl
  | cons k keys ih =>
      refine alone_disk fun r d c hex => ?_
      cases hex
      exact ih.bind fun _ _ hs => hs

theorem reconcileWithDisk_alone :
    reconcileWithDisk.Alone (machine cfg) t free s fun _ s' => s'.index = s.index := by
  refine alone_disk fun keys d c hex => ?_
  cases hex
  refine (findMissing_alone _).bind fun missing s' hs => ?_
  subst hs
  split
  · exact rfl
  · refine alone_disk fun counts d c hex => ?_
    exact alone_disk fun _ d' c' hex' => rfl

/-- The new filter has the live keys and what was pending. -/
def Rebuilt (cfg : NodeConfig) (pending : List Digest) (s : State) : Prop :=
  s.index.bloom = (PeerIndex.bloomOf cfg.index s.disk.inner.entries.keys).insertAll pending

theorem rebuildLocalFromCache_alone :
    (rebuildLocalFromCache cfg).Alone (machine cfg) t free s fun _ s' =>
      s'.disk = s.disk ∧ Rebuilt cfg s.index.pending s' :=
  alone_snapshotKeys (alone_index (alone_index ⟨rfl, rfl⟩))

theorem rebuildWork_alone :
    (rebuildWork cfg).Alone (machine cfg) t free s fun _ s' => Rebuilt cfg s.index.pending s' := by
  refine reconcileWithDisk_alone.bind fun _ s' hs => ?_
  refine rebuildLocalFromCache_alone.bind fun _ s'' hs' => ?_
  rw [hs] at hs'
  exact alone_index hs'.2

theorem sweep_alone (names : List String) :
    (sweep names).Alone (machine cfg) t free s fun _ s' =>
      s'.index = s.index ∧ s'.disk.inner = s.disk.inner := by
  induction names generalizing s with
  | nil => exact ⟨rfl, rfl⟩
  | cons name names ih =>
      refine alone_disk fun r d c hex => ?_
      cases hex
      exact ih

theorem clearAll_alone :
    clearAll.Alone (machine cfg) t free s fun r s' =>
      (∃ counts, r = .ok counts) ∧ s'.index = s.index ∧ s'.disk.inner.entries = ∅ := by
  refine alone_disk fun counts d c hex => ?_
  have hentries : d.inner.entries = ∅ := by
    have hd : d = (s.disk.clearSection cfg.disk c.stuck).2 := (congrArg Prod.snd hex).symm
    rw [hd]
    exact s.disk.inner.clearAll_entries
  refine alone_disk fun names d' c' hex' => ?_
  cases hex'
  refine (sweep_alone _).bind fun _ s' hs => ?_
  refine ⟨⟨counts, rfl⟩, hs.1, ?_⟩
  rw [hs.2]
  exact hentries

theorem clearLocalState_alone :
    (clearLocalState cfg).Alone (machine cfg) t (s.fetch.inflightWrites.keys = []) s fun _ s' =>
      s'.disk.inner.entries = ∅ ∧ Rebuilt cfg s.index.pending s' := by
  refine alone_fetch ?_ fun _ f' => ?_
  · intro hempty
    exact ⟨(), s.fetch, by simp [FetchState.exec, hempty]⟩
  refine clearAll_alone.bind fun r s' hs => ?_
  obtain ⟨⟨counts, rfl⟩, hindex, hentries⟩ := hs
  refine alone_fetch (fun _ => ⟨_, _, rfl⟩) fun _ f' => ?_
  refine alone_fetch (fun _ => ⟨_, _, rfl⟩) fun _ f' => ?_
  refine alone_fetch (fun _ => ⟨_, _, rfl⟩) fun _ f' => ?_
  refine alone_fetch (fun _ => ⟨_, _, rfl⟩) fun _ f' => ?_
  refine rebuildLocalFromCache_alone.bind fun _ s'' hs' => ?_
  change s''.disk = s'.disk ∧ Rebuilt cfg s'.index.pending s'' at hs'
  rw [hindex] at hs'
  refine ⟨?_, hs'.2⟩
  rw [hs'.1]
  exact hentries

end Alone

/-- The rebuild of the loop and the one of `clear_local_state`, each run to its
end with nothing else going on. The filter has exactly the live keys when the
pending digests are covered by them, and only then. -/
theorem rebuild_exact_iff {c : Config (machine cfg)} {t : Nat} {th : Thread effect}
    (hth : c.threads[t]? = some th) (hbegin : th.status = .running (body cfg th.job)) :
    (th.job = .rebuildWork →
      (∃ c' v, Config.Solo t c c' ∧ c'.result t = some v) ∧
      ∀ c' v, Config.Solo t c c' → c'.result t = some v →
        (c'.state.index.bloom = PeerIndex.bloomOf cfg.index c'.state.disk.inner.entries.keys ↔
          ∀ d ∈ c.state.index.pending,
            (PeerIndex.bloomOf cfg.index c'.state.disk.inner.entries.keys).contains d = true)) ∧
    (th.job = .clearLocalState →
      (c.state.fetch.inflightWrites.keys = [] →
        ∃ c' v, Config.Solo t c c' ∧ c'.result t = some v) ∧
      ∀ c' v, Config.Solo t c c' → c'.result t = some v →
        c'.state.disk.inner.entries.keys = [] ∧
        (c'.state.index.bloom = Bloom.new cfg.bloomBits ↔ c.state.index.pending = [])) := by
  constructor
  · intro hjob
    rw [hjob] at hbegin
    have halone : (body cfg .rebuildWork).Alone (machine cfg) t True c.state
        fun _ s' => Rebuilt cfg c.state.index.pending s' :=
      rebuildWork_alone.bind fun _ _ hs => hs
    refine ⟨halone.completes Choice.benign trivial hth hbegin, fun c' v hsolo hdone => ?_⟩
    have hbloom := halone.result hth hbegin hsolo hdone
    rw [hbloom]
    exact Bloom.insertAll_eq_self_iff
  · intro hjob
    rw [hjob] at hbegin
    have halone : (body cfg .clearLocalState).Alone (machine cfg) t
        (c.state.fetch.inflightWrites.keys = []) c.state
        fun _ s' => s'.disk.inner.entries = ∅ ∧ Rebuilt cfg c.state.index.pending s' :=
      clearLocalState_alone.bind fun _ _ hs => hs
    refine ⟨fun hempty => halone.completes Choice.benign hempty hth hbegin,
      fun c' v hsolo hdone => ?_⟩
    obtain ⟨hentries, hbloom⟩ := halone.result hth hbegin hsolo hdone
    have hkeys : c'.state.disk.inner.entries.keys = [] := by
      rw [hentries]
      rfl
    refine ⟨hkeys, ?_⟩
    unfold Rebuilt at hbloom
    rw [hkeys] at hbloom
    rw [hbloom]
    change (Bloom.new cfg.bloomBits).insertAll c.state.index.pending = _ ↔ _
    rw [Bloom.insertAll_eq_self_iff]
    simp [Bloom.new_contains, List.eq_nil_iff_forall_not_mem]

/-- A chunk is stored and noted, and later the node is cleared. -/
def clearSchedule : List (Label (machine sampleConfig)) :=
  [.start (.insertReceivedChunk (sampleKey 0) [1, 2, 3, 4])] ++ storeTurns 0

/-- A node that has stored a chunk, and rebuilt its filter since, is cleared. -/
theorem rebuild_exact_iff_when_nothing_pending :
    ∃ c c₁ c₂ : Config (machine sampleConfig),
      Config.Reach (fun _ _ => True) (.init (State.new sampleConfig)) c ∧
      c.state.disk.inner.entries.keys = [sampleKey 0] ∧
      c.step (.start .clearLocalState) = some (.start .clearLocalState, c₁) ∧
      Config.Solo 5 c₁ c₂ ∧ (c₂.result 5).isSome = true ∧
      c₂.state.index.bloom = Bloom.new sampleConfig.bloomBits := by
  obtain ⟨c, hrun, hc⟩ := Config.reach_of_labels (M := machine sampleConfig)
    (.init (State.new sampleConfig))
    (clearSchedule ++ [.start .bloomRebuildTick] ++ turns 3 1 ++ turns 4 7 ++ turns 3 3)
    (fun c => decide (c.threads.length = 5 ∧ c.state.disk.inner.entries.keys = [sampleKey 0] ∧
      c.state.index.pending = [] ∧ c.state.fetch.inflightWrites.keys = []))
    (by decide +kernel)
  obtain ⟨hthreads, hkeys, hpending, hwrites⟩ := of_decide_eq_true hc
  let th : Thread effect :=
    ⟨.clearLocalState, none, .running (body sampleConfig .clearLocalState)⟩
  let c₁ : Config (machine sampleConfig) := { c with threads := c.threads ++ [th] }
  have hth : c₁.threads[5]? = some th := by
    rw [← hthreads]
    exact List.getElem?_concat_length
  have hclear := (rebuild_exact_iff hth rfl).2 rfl
  obtain ⟨c₂, v, hsolo, hdone⟩ := hclear.1 hwrites
  refine ⟨c, c₁, c₂, hrun, hkeys, rfl, hsolo, by rw [hdone]; rfl, ?_⟩
  exact (hclear.2 c₂ v hsolo hdone).2.mpr hpending

theorem cleared_node_still_advertises :
    ∃ c c₁ c₂ : Config (machine sampleConfig),
      Config.Reach (anyEnv sampleConfig).allowed (.init (State.new sampleConfig)) c ∧
      c.quiescent = true ∧
      c.step (.start .clearLocalState) = some (.start .clearLocalState, c₁) ∧
      Config.Solo 3 c₁ c₂ ∧ (c₂.result 3).isSome = true ∧
      c₂.state.disk.inner.entries.keys = [] ∧
      c₂.state.index.bloom.contains (keyDigest sampleConfig.sha256 (sampleKey 0)) = true := by
  obtain ⟨c, hrun, hc⟩ := Config.reach_of_replay
    (gate_allowed (fun j => decide (j ∈ rebuildJobs)) (fun _ _ => true) rebuildJobs_ok
      fun _ _ _ => trivial)
    (.init (State.new sampleConfig)) clearSchedule
    (fun c => c.quiescent && (c.step (.start .clearLocalState)).any fun ec =>
      (ec.2.replay (fun _ e => e.isRun 3) (turns 3 11)).any fun c₂ =>
        (c₂.result 3).isSome && decide (c₂.state.disk.inner.entries.keys = []) &&
          c₂.state.index.bloom.contains (keyDigest sampleConfig.sha256 (sampleKey 0)))
    (by decide +kernel)
  simp only [Bool.and_eq_true] at hc
  obtain ⟨hquiet, hclear⟩ := hc
  obtain ⟨c₂, hsolo, hc₂⟩ := Config.reach_of_replay (fun _ _ h => h) _ _ _ hclear
  simp only [Bool.and_eq_true, decide_eq_true_eq] at hc₂
  exact ⟨c, _, c₂, hrun, hquiet, rfl, hsolo, hc₂.1.1, hc₂.1.2, hc₂.2⟩

end BlobCache.Node
