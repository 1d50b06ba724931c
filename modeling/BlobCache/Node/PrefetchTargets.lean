import BlobCache.Node.CheckedRange

/-!
Which chunks `maybe_trigger_prefetch` starts to fetch. The function looks at one chunk
after the other, and other threads may move between any two of its steps, so that each
chunk is judged by the states in which it is looked at: first in the cache, then among
the pending writes, then among the fetches in flight. Every chunk ahead that is inside
the file is judged, and those found nowhere are the ones that are fetched. Where nothing
else moves, the state before the call decides.
-/

namespace BlobCache.Node

open Cache Conc

variable {cfg : NodeConfig}

def State.cached (s : State) (key : ChunkKey) : Bool := (s.disk.inner.entries.get? key).isSome

def State.writing (s : State) (key : ChunkKey) : Bool :=
  (s.fetch.inflightWrites.get? key).isSome

def State.fetching (s : State) (key : ChunkKey) : Bool := (s.fetch.inflight.get? key).isSome

/-- What the looks at a chunk found, in the order in which the function takes them: whether
the chunk is to be fetched. -/
inductive Judged (trace : List (Act (machine cfg))) (key : ChunkKey) : Bool → Prop where
  | cached (s : State) (hlook : .did (.disk (.entrySize key)) s ∈ trace)
      (hfound : s.cached key = true) : Judged trace key false
  | writing (s s' : State) (hlook : .did (.disk (.entrySize key)) s ∈ trace)
      (hnone : s.cached key = false) (hlook' : .did (.fetch (.writesGet key)) s' ∈ trace)
      (hfound : s'.writing key = true) : Judged trace key false
  | fetching (s s' s'' : State) (hlook : .did (.disk (.entrySize key)) s ∈ trace)
      (hnone : s.cached key = false) (hlook' : .did (.fetch (.writesGet key)) s' ∈ trace)
      (hnone' : s'.writing key = false)
      (hlook'' : .did (.fetch (.inflightContains key)) s'' ∈ trace)
      (hfound : s''.fetching key = true) : Judged trace key false
  | free (s s' s'' : State) (hlook : .did (.disk (.entrySize key)) s ∈ trace)
      (hnone : s.cached key = false) (hlook' : .did (.fetch (.writesGet key)) s' ∈ trace)
      (hnone' : s'.writing key = false)
      (hlook'' : .did (.fetch (.inflightContains key)) s'' ∈ trace)
      (hnone'' : s''.fetching key = false) : Judged trace key true

theorem Judged.mono {trace trace' : List (Act (machine cfg))} {key : ChunkKey} {v : Bool}
    (h : Judged trace key v) (hsub : trace ⊆ trace') : Judged trace' key v := by
  cases h with
  | cached s h1 h2 => exact .cached s (hsub h1) h2
  | writing s s' h1 h2 h3 h4 => exact .writing s s' (hsub h1) h2 (hsub h3) h4
  | fetching s s' s'' h1 h2 h3 h4 h5 h6 =>
      exact .fetching s s' s'' (hsub h1) h2 (hsub h3) h4 (hsub h5) h6
  | free s s' s'' h1 h2 h3 h4 h5 h6 =>
      exact .free s s' s'' (hsub h1) h2 (hsub h3) h4 (hsub h5) h6

/-- All operations found a state that has what `s` has. -/
def Alike (s : State) (trace : List (Act (machine cfg))) : Prop :=
  ∀ o s', .did o s' ∈ trace → s'.cached = s.cached ∧ s'.writing = s.writing ∧
    s'.fetching = s.fetching

/-- Where all looks find the same, the state decides. -/
theorem Judged.of_alike {trace : List (Act (machine cfg))} {key : ChunkKey} {v : Bool}
    (h : Judged trace key v) {s : State} (halike : Alike s trace) :
    v = (!s.cached key && !s.writing key && !s.fetching key) := by
  cases h with
  | cached s' h1 h2 =>
      rw [(halike _ _ h1).1] at h2
      simp [h2]
  | writing s' s'' h1 h2 h3 h4 =>
      rw [(halike _ _ h3).2.1] at h4
      simp [h4]
  | fetching s' s'' s₃ h1 h2 h3 h4 h5 h6 =>
      rw [(halike _ _ h5).2.2] at h6
      simp [h6]
  | free s' s'' s₃ h1 h2 h3 h4 h5 h6 =>
      rw [(halike _ _ h1).1] at h2
      rw [(halike _ _ h3).2.1] at h4
      rw [(halike _ _ h5).2.2] at h6
      simp [h2, h4, h6]

section Loop

variable (cfg) (mount : MountConfig) (blob : String) (cur fileSize : Nat)

/-- The offset of the `i`-th chunk ahead. -/
def ahead (i : Nat) : Nat := cur + i * cfg.chunkSize

def aheadTask (i : Nat) : Job :=
  .prefetchTask mount blob (ahead cfg cur i) (min cfg.chunkSize (fileSize - ahead cfg cur i))

/-- The fetches that were started are those of the chunks ahead that are inside the file and
were found nowhere, for the numbers from `i` to before `i + depth`. -/
structure Targets (trace : List (Act (machine cfg))) (i depth : Nat) : Prop where
  began : ∀ j, .began j ∈ trace → ∃ i', i ≤ i' ∧ i' < i + depth ∧
    ahead cfg cur i' < fileSize ∧ j = aheadTask cfg mount blob cur fileSize i'
  judged : ∀ i', i ≤ i' → i' < i + depth → ahead cfg cur i' < fileSize →
    ∃ v, Judged trace ⟨mount.name, blob, ahead cfg cur i'⟩ v ∧
      (.began (aheadTask cfg mount blob cur fileSize i') ∈ trace ↔ v = true)

variable {cfg mount blob cur fileSize}

theorem aheadTask_inj (hcs : 0 < cfg.chunkSize) {i i' : Nat}
    (h : aheadTask cfg mount blob cur fileSize i = aheadTask cfg mount blob cur fileSize i') :
    i = i' := by
  unfold aheadTask at h
  injection h with _ _ hoff _
  unfold ahead at hoff
  exact Nat.eq_of_mul_eq_mul_right hcs (Nat.add_left_cancel hoff)

/-- The looks at one more chunk, before those at the others. -/
theorem Targets.cons (hcs : 0 < cfg.chunkSize) {rest : List (Act (machine cfg))}
    {i depth : Nat} {v : Bool} (h : Targets cfg mount blob cur fileSize rest (i + 1) depth)
    (looks : List (Act (machine cfg))) (hin : ahead cfg cur i < fileSize)
    (hlooks : ∀ j, .began j ∈ looks → j = aheadTask cfg mount blob cur fileSize i)
    (hv : Judged looks ⟨mount.name, blob, ahead cfg cur i⟩ v)
    (hbegan : .began (aheadTask cfg mount blob cur fileSize i) ∈ looks ↔ v = true) :
    Targets cfg mount blob cur fileSize (looks ++ rest) i (depth + 1) := by
  constructor
  · intro j hj
    rcases List.mem_append.mp hj with hj | hj
    · exact ⟨i, le_rfl, by omega, hin, hlooks j hj⟩
    · obtain ⟨i', hle, hlt, hin', rfl⟩ := h.began j hj
      exact ⟨i', by omega, by omega, hin', rfl⟩
  · intro i' hle hlt hin'
    by_cases hi : i' = i
    · subst hi
      refine ⟨v, hv.mono (List.subset_append_left looks rest), ?_⟩
      rw [List.mem_append, ← hbegan]
      constructor
      · rintro (hj | hj)
        · exact hj
        · obtain ⟨i'', hle', -, -, heq⟩ := h.began _ hj
          have := aheadTask_inj hcs heq
          omega
      · exact .inl
    · obtain ⟨v', hv', hiff⟩ := h.judged i' (by omega) (by omega) hin'
      refine ⟨v', hv'.mono (List.subset_append_right looks rest), ?_⟩
      rw [List.mem_append, ← hiff]
      constructor
      · rintro (hj | hj)
        · exact absurd (aheadTask_inj hcs (hlooks _ hj)) hi
        · exact hj
      · exact .inr

variable {others : Nat → State → State} {choice : Nat → Choice} {t : Nat}

section Watch

variable {α : Type} {P : List (Act (machine cfg)) → Prop} {key : ChunkKey} {n : Nat} {s : State}

theorem watch_entrySize {f : Option Nat → NodeM α}
    (h : P (.did (.disk (.entrySize key)) (others n s) ::
      (f (((others n s).disk.inner.entries.get? key).map Entry.size)).watch (machine cfg)
        others choice t (n + 1) (others n s))) :
    P ((disk (.entrySize key) >>= f).watch (machine cfg) others choice t n s) := h

theorem watch_writesGet {f : Option Bytes → NodeM α}
    (h : P (.did (.fetch (.writesGet key)) (others n s) ::
      (f ((others n s).fetch.inflightWrites.get? key)).watch (machine cfg) others choice t
        (n + 1) (others n s))) :
    P ((fetch (.writesGet key) >>= f).watch (machine cfg) others choice t n s) := h

theorem watch_inflightContains {f : Bool → NodeM α}
    (h : P (.did (.fetch (.inflightContains key)) (others n s) ::
      (f ((others n s).fetching key)).watch (machine cfg) others choice t (n + 1)
        (others n s))) :
    P ((fetch (.inflightContains key) >>= f).watch (machine cfg) others choice t n s) := h

theorem watch_trackRead {mount blob : String} {reqOffset reqEnd chunkSize : Nat}
    {f : Nat × Nat → NodeM α}
    (h : P (.did (.fetch (.trackRead mount blob reqOffset reqEnd chunkSize)) (others n s) ::
      (f ((others n s).fetch.trackRead mount blob reqOffset reqEnd chunkSize).1).watch
        (machine cfg) others choice t (n + 1) { others n s with
          fetch := ((others n s).fetch.trackRead mount blob reqOffset reqEnd chunkSize).2 })) :
    P ((fetch (.trackRead mount blob reqOffset reqEnd chunkSize) >>= f).watch (machine cfg)
      others choice t n s) := h

end Watch

theorem prefetchLoop_targets (hcs : 0 < cfg.chunkSize) (hsize : fileSize < 2 ^ 63) {i : Nat}
    (hi : 1 ≤ i) (hfirst : cur + i * cfg.chunkSize ≤ u64Max) (depth n : Nat) (s : State) :
    Targets cfg mount blob cur fileSize
      ((prefetchLoop cfg mount blob cur fileSize (List.range' i depth)).watch (machine cfg)
        others choice t n s) i depth := by
  induction depth generalizing i n s with
  | zero =>
      constructor
      · intro j hj
        cases hj
      · intro i' hle hlt
        omega
  | succ depth ih =>
      have hmod : (cur + i * cfg.chunkSize) % 2 ^ 64 = ahead cfg cur i := by
        apply Nat.mod_eq_of_lt
        unfold u64Max at hfirst
        omega
      rw [List.range'_succ, prefetchLoop]
      dsimp only
      rw [hmod]
      split
      · rename_i hge
        constructor
        · intro j hj
          cases hj
        · intro i' hle _ hin
          have := Nat.mul_le_mul_right cfg.chunkSize hle
          unfold ahead at hge hin
          omega
      · rename_i hlt
        have hin : ahead cfg cur i < fileSize := Nat.not_le.mp hlt
        have hle : cfg.chunkSize ≤ i * cfg.chunkSize := Nat.le_mul_of_pos_left _ hi
        have hnext (n : Nat) (s : State) := ih (i := i + 1) (by omega) (by
          rw [Nat.succ_mul]
          unfold ahead at hin
          unfold u64Max
          omega) n s
        apply watch_entrySize (P := (Targets cfg mount blob cur fileSize · i (depth + 1)))
        split
        · rename_i hcached
          rw [Option.isSome_map] at hcached
          exact (hnext _ _).cons hcs [_] hin (by simp)
            (.cached _ List.mem_cons_self hcached) (by simp)
        · rename_i hcached
          rw [Option.isSome_map, Bool.not_eq_true] at hcached
          apply watch_writesGet
            (P := fun w => Targets cfg mount blob cur fileSize (_ :: w) i (depth + 1))
          split
          · rename_i hwriting
            exact (hnext _ _).cons hcs [_, _] hin (by simp)
              (.writing _ _ List.mem_cons_self hcached (by simp) hwriting) (by simp)
          · rename_i hwriting
            rw [Bool.not_eq_true] at hwriting
            apply watch_inflightContains
              (P := fun w => Targets cfg mount blob cur fileSize (_ :: _ :: w) i (depth + 1))
            split
            · rename_i hfetching
              exact (hnext _ _).cons hcs [_, _, _] hin (by simp)
                (.fetching _ _ _ List.mem_cons_self hcached (by simp) hwriting (by simp)
                  hfetching) (by simp)
            · rename_i hfetching
              rw [Bool.not_eq_true] at hfetching
              refine (hnext _ _).cons hcs [_, _, _, _] hin ?_
                (.free _ _ _ List.mem_cons_self hcached (by simp) hwriting (by simp)
                  hfetching) (by simp [aheadTask])
              intro j hj
              simp only [List.mem_cons, reduceCtorEq, List.not_mem_nil, or_false,
                false_or] at hj
              injection hj

/-- All operations found the state `s`. -/
def Still (s : State) (trace : List (Act (machine cfg))) : Prop :=
  ∀ o s', .did o s' ∈ trace → s' = s

theorem Still.did {s : State} {trace : List (Act (machine cfg))} (h : Still s trace) (o : Op) :
    Still s (.did o s :: trace) := by
  intro o' s' hmem
  rcases List.mem_cons.mp hmem with heq | hmem
  · injection heq
  · exact h o' s' hmem

theorem Still.began {s : State} {trace : List (Act (machine cfg))} (h : Still s trace) (j : Job) :
    Still s (.began j :: trace) := by
  intro o' s' hmem
  rcases List.mem_cons.mp hmem with heq | hmem
  · cases heq
  · exact h o' s' hmem

/-- The loop changes nothing that it looks at. -/
theorem prefetchLoop_still (steps : List Nat) (n : Nat) (s : State) :
    Still s ((prefetchLoop cfg mount blob cur fileSize steps).watch (machine cfg)
      (fun _ s => s) choice t n s) := by
  induction steps generalizing n with
  | nil =>
      intro o s' hmem
      cases hmem
  | cons i steps ih =>
      unfold prefetchLoop
      dsimp only
      split
      · intro o s' hmem
        cases hmem
      · apply watch_entrySize (P := Still s)
        apply Still.did
        split
        · exact ih _
        · apply watch_writesGet (P := Still s)
          apply Still.did
          split
          · exact ih _
          · apply watch_inflightContains (P := Still s)
            apply Still.did
            split
            · exact ih _
            · exact (ih _).began _

end Loop

/-! ## The whole call -/

variable {mount : MountConfig} {blob : String} {reqOffset reqEnd fileSize : Nat}

/-- The call goes on to the loop: enough reads in a row, and the last chunk not from a peer
where only those from the origin count. -/
def Triggers (cfg : NodeConfig) (f : FetchState) (mount : MountConfig) (blob : String)
    (reqOffset reqEnd : Nat) : Prop :=
  let streaks := (f.trackRead mount.name blob reqOffset reqEnd cfg.chunkSize).1
  cfg.prefetchDepth ≠ 0 ∧ max cfg.prefetchThreshold 1 ≤ streaks.1 ∧
    ¬ (cfg.prefetchOriginOnly = true ∧ streaks.2 = 0)

variable {others : Nat → State → State} {choice : Nat → Choice} {t : Nat} {s : State}

theorem maybeTriggerPrefetch_idle
    (h : ¬ Triggers cfg (others 0 s).fetch mount blob reqOffset reqEnd) (j : Job) :
    .began j ∉ (maybeTriggerPrefetch cfg mount blob reqOffset reqEnd fileSize).watch
      (machine cfg) others choice t 0 s := by
  unfold maybeTriggerPrefetch
  split
  · rintro ⟨⟩
  · rename_i hdepth
    apply watch_trackRead (P := (Act.began j ∉ ·))
    split
    · rintro (_ | ⟨_, ⟨⟩⟩)
    · rename_i henough
      split
      · rintro (_ | ⟨_, ⟨⟩⟩)
      · rename_i horigin
        exact absurd ⟨hdepth, Nat.not_lt.mp henough, horigin⟩ h

/-- The call that triggers counts the read and then runs the loop. -/
theorem watch_of_triggers {P : List (Act (machine cfg)) → Prop} (hend : 0 < reqEnd)
    (htriggers : Triggers cfg (others 0 s).fetch mount blob reqOffset reqEnd)
    (h : ∀ o s', s'.disk = (others 0 s).disk →
      s'.fetch.inflightWrites = (others 0 s).fetch.inflightWrites →
      s'.fetch.inflight = (others 0 s).fetch.inflight →
      P (.did o (others 0 s) ::
        (prefetchLoop cfg mount blob ((reqEnd - 1) / cfg.chunkSize * cfg.chunkSize) fileSize
          (List.range' 1 cfg.prefetchDepth)).watch (machine cfg) others choice t 1 s')) :
    P ((maybeTriggerPrefetch cfg mount blob reqOffset reqEnd fileSize).watch (machine cfg)
      others choice t 0 s) := by
  obtain ⟨hdepth, henough, horigin⟩ := htriggers
  unfold maybeTriggerPrefetch
  rw [if_neg hdepth]
  apply watch_trackRead (P := P)
  rw [if_neg (Nat.not_lt.mpr henough), if_neg horigin, if_neg (Nat.pos_iff_ne_zero.mp hend),
    map_succ_range]
  exact h _ _ rfl rfl rfl

/-- The chunks whose fetch is started are those ahead of the one that holds the last byte of
the read that are inside the file and were found nowhere when they were looked for. -/
theorem maybeTriggerPrefetch_targets (hcs : 0 < cfg.chunkSize) (hmax : cfg.chunkSize ≤ u64Max)
    (hend : 0 < reqEnd) (hle : reqEnd ≤ fileSize) (hsize : fileSize < 2 ^ 63)
    (htriggers : Triggers cfg (others 0 s).fetch mount blob reqOffset reqEnd) :
    Targets cfg mount blob ((reqEnd - 1) / cfg.chunkSize * cfg.chunkSize) fileSize
      ((maybeTriggerPrefetch cfg mount blob reqOffset reqEnd fileSize).watch (machine cfg)
        others choice t 0 s) 1 cfg.prefetchDepth := by
  apply watch_of_triggers hend htriggers
    (P := (Targets cfg mount blob _ fileSize · 1 cfg.prefetchDepth))
  intro o s' _ _ _
  have hfirst : (reqEnd - 1) / cfg.chunkSize * cfg.chunkSize + 1 * cfg.chunkSize ≤ u64Max := by
    rw [Nat.one_mul]
    exact add_chunkSize_le hmax (by omega)
  have hloop := @prefetchLoop_targets cfg mount blob _ fileSize others choice t hcs hsize 1
    le_rfl hfirst cfg.prefetchDepth 1 s'
  constructor
  · intro j hj
    rcases List.mem_cons.mp hj with hj | hj
    · cases hj
    · exact hloop.began j hj
  · intro i hi hdepth hin
    obtain ⟨v, hv, hiff⟩ := hloop.judged i hi hdepth hin
    refine ⟨v, hv.mono (List.subset_cons_self _ _), ?_⟩
    rw [List.mem_cons, ← hiff]
    constructor
    · rintro (hj | hj)
      · cases hj
      · exact hj
    · exact .inr

theorem maybeTriggerPrefetch_alike (hend : 0 < reqEnd)
    (htriggers : Triggers cfg s.fetch mount blob reqOffset reqEnd) :
    Alike s ((maybeTriggerPrefetch cfg mount blob reqOffset reqEnd fileSize).watch
      (machine cfg) (fun _ s => s) choice t 0 s) := by
  refine @watch_of_triggers cfg mount blob reqOffset reqEnd fileSize (fun _ s => s) choice t s
    (Alike s) hend htriggers ?_
  intro o s₁ hdisk hwrites hinflight o' s' h
  rcases List.mem_cons.mp h with heq | h
  · injection heq with _ hs
    rw [hs]
    exact ⟨rfl, rfl, rfl⟩
  · have hs : s' = s₁ := prefetchLoop_still _ 1 s₁ o' s' h
    rw [hs]
    unfold State.cached State.writing State.fetching
    rw [hdisk, hwrites, hinflight]
    exact ⟨rfl, rfl, rfl⟩

end BlobCache.Node
