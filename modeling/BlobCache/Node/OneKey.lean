import BlobCache.Node.Notes

/-!
Runs that are about one chunk: requests for one key with the length that the
chunk has, the lookups that they start and the inserts of what they fetched.
Nothing else runs, so no cached chunk is ever removed for its length.
-/

namespace BlobCache.Node

open Cache Conc

variable {cfg : NodeConfig}

/-- One key is in use and `p` holds of its right values. The origin answers;
`faults` lets peers deliver and system calls fail. -/
def keyEnv (cfg : NodeConfig) (k : ChunkKey) (p : Bytes → Prop) (faults : Prop) : Env cfg where
  keys := {k}
  good k' d := k' = k → p d
  shared _ _ _ hk' _ _ hd _ := hd (Set.mem_singleton_iff.mp hk')
  net := True
  originErr := False
  peerHit := faults
  ioErr := faults

/-- A request for the chunk with its length. -/
def Job.asks (k : ChunkKey) (n : Nat) : Job → Prop
  | .fetchChunk mount blob offset expectedLen
  | .fetchChunkOriginOnly mount blob offset expectedLen
  | .fetchChunkRange mount blob offset _ _ expectedLen =>
      (⟨mount.name, blob, offset⟩ : ChunkKey) = k ∧ expectedLen = n
  | .servePeerChunk key expectedLen _ => key = k ∧ expectedLen = n
  | _ => False

/-- Everything that runs on behalf of such requests. -/
def Job.serves (k : ChunkKey) (n : Nat) (j : Job) : Prop :=
  match j with
  | .tryGet key | .tryGetRange key _ _ | .insertTask key _ | .insert key _ => key = k
  | j => j.asks k n

theorem Job.asks.serves {k : ChunkKey} {n : Nat} {j : Job} (h : j.asks k n) : j.serves k n := by
  cases j <;> first | exact h | exact h.elim

theorem Job.asks.expectedLen {k : ChunkKey} {n : Nat} {j : Job} (h : j.asks k n) :
    j.expectedLen = some n := by
  cases j <;> first | exact h.elim | exact congrArg some h.2

theorem Job.serves.expectedLen {k : ChunkKey} {n m : Nat} {j : Job} (h : j.serves k n)
    (hm : j.expectedLen = some m) : m = n := by
  have hasks : j.asks k n := by
    cases j <;> first | exact h | cases hm
  rw [hasks.expectedLen] at hm
  exact (Option.some.inj hm).symm

/-- Such jobs neither sweep the directory nor reconcile nor clear. -/
theorem Job.serves.quiet {k : ChunkKey} {n : Nat} {j : Job} (h : j.serves k n) :
    j.sweeps = false ∧ j.reconciles = false ∧ ∀ key, j ≠ .remove key := by
  cases j <;> first | exact h.elim | exact ⟨rfl, rfl, nofun⟩

theorem Job.asks.jobOk {k : ChunkKey} {n : Nat} {j : Job} {p : Bytes → Prop} {faults : Prop}
    (h : j.asks k n) : (keyEnv cfg k p faults).jobOk j := by
  cases j <;> first | exact h.elim | exact ⟨trivial, h.1⟩

section

variable {k : ChunkKey} {n : Nat} {p : Bytes → Prop} {faults : Prop}

theorem wrongLen_false (hp : ∀ d, p d → d.length = n) :
    ¬ (keyEnv cfg k p faults).wrongLen k n := by
  rintro ⟨d, hd, hne⟩
  exact hne (hp d (hd rfl))

/-- What a thread of such a run starts belongs to the run. -/
theorem serves_of_spawn (hp : ∀ d, p d → d.length = n) {l : Loc} {j : Job}
    (hl : l.job.serves k n) (hok : (keyEnv cfg k p faults).jobOk j)
    (hpre : (keyEnv cfg k p faults).spawnPre l j) : j.serves k n := by
  cases j with
  | tryGet key => exact hok
  | tryGetRange key offset len => exact hok
  | insertTask key data => exact hok.1
  | insert key data => exact hok.1
  | remove key =>
      -- a chunk is removed only for its length
      obtain ⟨m, hm, hwrong⟩ := hpre
      rw [Set.mem_singleton_iff.mp hok, hl.expectedLen hm] at hwrong
      exact absurd hwrong (wrongLen_false hp)
  | chunkTask mount blob o start len chunkLen =>
      obtain ⟨_, _, _, hjob, -⟩ := hpre
      rw [hjob] at hl
      cases hl
  | prefetchTask mount blob off chunkLen =>
      obtain ⟨_, _, _, hjob⟩ := hpre
      rw [hjob] at hl
      cases hl
  | rebuildWork =>
      rw [show l.job = .bloomRebuildTick from hpre] at hl
      cases hl
  | _ => cases hpre

/-- Only such jobs run, and nobody is cancelled. -/
def OneKey (k : ChunkKey) (n : Nat) (ws : Views (discipline (keyEnv cfg k p faults))) : Prop :=
  ∀ t v, ws t = some v → v.job.serves k n ∧ Loc.dead v.loc = false

theorem oneKey_keeps (hp : ∀ d, p d → d.length = n) {G : State → Event (machine cfg) → Prop}
    (hstart : ∀ s j, G s (.start j) → j.asks k n) (hcancel : ∀ s t, ¬ G s (.cancel t)) :
    Keeps (discipline (keyEnv cfg k p faults)) G (Base (keyEnv cfg k p faults))
      fun _ ws => OneKey k n ws where
  start _ h _ _ hg _ := Views.forall_update h ⟨(hstart _ _ hg).serves, rfl⟩
  op {s ws t v o c r s'} _ h hv _ _ _ _ := by
    obtain ⟨-, -, -, hdead⟩ := discipline_next_frame (keyEnv cfg k p faults) v.loc o r
    exact Views.forall_update h ⟨(h t v hv).1, hdead.trans (h t v hv).2⟩
  spawn {s ws t v u j} hB h hv _ hok hpre _ := by
    have hself := h t v hv
    have hloc := (hB.core.job t v hv).1
    refine Views.forall_update (Views.forall_update h hself) ⟨?_, rfl⟩
    exact serves_of_spawn hp (hloc.symm ▸ hself.1) hok hpre
  join {s ws t v hd w x} _ h hv _ _ _ := Views.forall_update h (h t v hv)
  lost {s ws t v hd w l} _ h hv _ _ _ := Views.forall_update h (h t v hv)
  cancel _ _ _ _ hg := absurd hg (hcancel _ _)

end

end BlobCache.Node
