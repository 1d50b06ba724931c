import BlobCache.Node.Discipline

/-!
The methods of the disk cache and of the peer index keep to the discipline.
Each specification says what the method returns and in which local state it
leaves its thread; callers use it and do not look inside.
-/

namespace BlobCache.Node

open Cache Conc

variable {cfg : NodeConfig} {env : Env cfg} {l : Loc} {α β : Type}

/-- A program of the node keeps to the discipline and ends in `Q`. -/
abbrev Spec (env : Env cfg) (l : Loc) (p : NodeM α) (Q : α → Loc → Prop) : Prop :=
  p.Sat (discipline env) l Q

namespace Spec

theorem bind {p : NodeM α} {f : α → NodeM β} {Q : α → Loc → Prop} {R : β → Loc → Prop}
    (h : Spec env l p Q) (hf : ∀ a l', Q a l' → Spec env l' (f a) R) :
    Spec env l (p >>= f) R :=
  Program.Sat.bind h hf

theorem mono {p : NodeM α} {Q R : α → Loc → Prop} (h : Spec env l p Q)
    (hQR : ∀ a l', Q a l' → R a l') : Spec env l p R :=
  Program.Sat.mono h hQR

theorem pure {a : α} {Q : α → Loc → Prop} (h : Q a l) : Spec env l (Pure.pure a) Q := h

theorem disk_bind {o : DiskOp} {f : o.Resp → NodeM β} {R : β → Loc → Prop}
    (hpre : diskPre env l o)
    (hf : ∀ r, diskAllows env l o r → Spec env (diskNext l o r) (f r) R) :
    Spec env l (disk o >>= f) R :=
  ⟨hpre, hf⟩

theorem index_bind {o : IndexOp} {f : o.Resp → NodeM β} {R : β → Loc → Prop}
    (hpre : indexPre cfg l o)
    (hf : ∀ r, Spec env (indexNext l o r) (f r) R) :
    Spec env l (index o >>= f) R :=
  ⟨hpre, fun r _ => hf r⟩

theorem fetch_bind {o : FetchOp} {f : o.Resp → NodeM β} {R : β → Loc → Prop}
    (hpre : fetchPre env l o)
    (hf : ∀ r, fetchAllows env l o r → Spec env (fetchNext l o r) (f r) R) :
    Spec env l (fetch o >>= f) R :=
  ⟨hpre, hf⟩

theorem spawn_bind {j : Job} {f : Handle effect → NodeM β} {R : β → Loc → Prop}
    (hjob : env.jobOk j) (hpre : env.spawnPre l j)
    (hf : ∀ t, Spec env (l.spawned ⟨t, j⟩) (f ⟨t, j⟩) R) :
    Spec env l (spawn j >>= f) R :=
  ⟨hjob, hpre, hf⟩

theorem call_bind {j : Job} {f : Option Val → NodeM β} {R : β → Loc → Prop}
    (hjob : env.jobOk j) (hpre : env.spawnPre l j)
    (hlost : ∀ t, Spec env ((l.spawned ⟨t, j⟩).joined ⟨t, j⟩ none) (f none) R)
    (hf : ∀ t v lc, env.valueOk lc j v →
      Spec env ((l.spawned ⟨t, j⟩).joined ⟨t, j⟩ (some v)) (f (some v)) R) :
    Spec env l (call j >>= f) R := by
  refine Program.Sat.call_bind hjob hpre ?_
  intro t r hr
  cases r with
  | none => exact hlost t
  | some v =>
      obtain ⟨lc, _, _, _, hval⟩ := hr v rfl
      exact hf t v lc hval

theorem join_bind {h : Handle effect} {j : Job} {f : Option Val → NodeM β}
    {R : β → Loc → Prop} (hj : h.job = j) (hlost : Spec env (l.joined h none) (f none) R)
    (hf : ∀ v lc, env.valueOk lc j v → Spec env (l.joined h (some v)) (f (some v)) R) :
    Spec env l (join h >>= f) R := by
  subst hj
  intro r hr
  cases r with
  | none => exact hlost
  | some v =>
      obtain ⟨lc, _, _, _, hval⟩ := hr v rfl
      exact hf v lc hval

end Spec

theorem Loc.with_idle (h : l.file = .idle) : { l with file := .idle } = l := by
  cases l
  simp_all

theorem tryGet_spec {key : ChunkKey} (hfile : l.file = .idle) (hkey : key ∈ env.keys) :
    Spec env l (tryGet key) fun r l' => l' = l ∧ ∀ d, r = some d → env.good key d := by
  unfold tryGet
  refine Spec.disk_bind trivial fun tracked _ => ?_
  split
  · exact Spec.disk_bind trivial fun _ _ => Spec.pure ⟨rfl, by simp⟩
  · refine Spec.disk_bind ⟨hfile, hkey⟩ fun fd _ => ?_
    cases fd with
    | none => exact Spec.disk_bind trivial fun _ _ => Spec.pure ⟨rfl, by simp⟩
    | some fd =>
        refine Spec.disk_bind ⟨key, rfl⟩ fun data hdata => ?_
        change Spec env { l with file := .idle } _ _
        rw [Loc.with_idle hfile]
        cases data with
        | none => exact Spec.disk_bind trivial fun _ _ => Spec.pure ⟨rfl, by simp⟩
        | some data =>
            refine Spec.disk_bind trivial fun touched _ => ?_
            split
            · exact Spec.pure ⟨rfl, by simp⟩
            · refine Spec.disk_bind trivial fun _ _ => Spec.pure ⟨rfl, ?_⟩
              rintro d ⟨⟩
              exact hdata key rfl data rfl

theorem readRange_spec {key : ChunkKey} {offset len : Nat} (hfile : l.file = .idle)
    (hkey : key ∈ env.keys) :
    Spec env l (readRange key offset len) fun r l' =>
      l' = l ∧ ∀ b, r = some b → env.partOf key offset len b := by
  unfold readRange
  refine Spec.disk_bind ⟨hfile, hkey⟩ fun fd _ => ?_
  cases fd with
  | none => exact Spec.disk_bind trivial fun _ _ => Spec.pure ⟨rfl, by simp⟩
  | some fd =>
      refine Spec.disk_bind ⟨key, rfl⟩ fun buf hbuf => ?_
      change Spec env { l with file := .idle } _ _
      rw [Loc.with_idle hfile]
      cases buf with
      | none => exact Spec.disk_bind trivial fun _ _ => Spec.pure ⟨rfl, by simp⟩
      | some buf =>
          refine Spec.disk_bind trivial fun touched _ => ?_
          split
          · exact Spec.pure ⟨rfl, by simp⟩
          · refine Spec.disk_bind trivial fun _ _ => Spec.pure ⟨rfl, ?_⟩
            rintro b ⟨⟩
            exact hbuf key rfl buf rfl

theorem tryGetRange_spec {key : ChunkKey} {offset len : Nat} (hfile : l.file = .idle)
    (hkey : key ∈ env.keys) :
    Spec env l (tryGetRange key offset len) fun r l' =>
      l' = l ∧ ∀ b, r = some b → env.rangeOk key offset len b := by
  unfold tryGetRange
  split
  · rename_i hlen
    refine Spec.pure ⟨rfl, ?_⟩
    rintro b ⟨⟩
    exact .inl ⟨hlen, rfl⟩
  · refine Spec.disk_bind trivial fun size _ => ?_
    cases size with
    | none => exact Spec.disk_bind trivial fun _ _ => Spec.pure ⟨rfl, by simp⟩
    | some size =>
        dsimp only
        split
        · exact Spec.disk_bind trivial fun _ _ => Spec.pure ⟨rfl, by simp⟩
        · refine (readRange_spec hfile hkey).mono ?_
          rintro r l' ⟨hl, hr⟩
          exact ⟨hl, fun b hb => .inr (hr b hb)⟩

theorem tryGetIntoSlice_spec {key : ChunkKey} {dstLen : Nat} (hfile : l.file = .idle)
    (hkey : key ∈ env.keys) :
    Spec env l (tryGetIntoSlice key dstLen) fun r l' =>
      l' = l ∧ ∀ n b, r = some (n, b) → n = dstLen ∧ env.partOf key 0 dstLen b := by
  unfold tryGetIntoSlice
  refine Spec.disk_bind trivial fun size _ => ?_
  cases size with
  | none => exact Spec.disk_bind trivial fun _ _ => Spec.pure ⟨rfl, by simp⟩
  | some size =>
      dsimp only
      split
      · exact Spec.pure ⟨rfl, by simp⟩
      · rename_i hlen
        refine (readRange_spec hfile hkey).bind ?_
        rintro r l' ⟨rfl, hr⟩
        cases r with
        | none => exact Spec.pure ⟨rfl, by simp⟩
        | some dst =>
            refine Spec.pure ⟨rfl, ?_⟩
            rintro n b ⟨⟩
            exact ⟨(not_not.mp hlen).symm, hr _ rfl⟩

theorem insert_spec {key : ChunkKey} {data : Bytes} (hjob : l.job = .insert key data)
    (hfile : l.file = .idle) (hlanded : l.landed = false) (hkey : key ∈ env.keys)
    (hgood : env.good key data) :
    Spec env l (insert key data) fun r l' =>
      r = .ok () ∧ l' = { l with landed := true } ∨ ∃ e, r = .error e ∧ l' = l ∧ env.ioErr := by
  have hfail (hio : env.ioErr) :
      Spec env { l with file := .idle } (return Except.error osError) fun r l' =>
        r = .ok () ∧ l' = { l with landed := true } ∨
          ∃ e, r = .error e ∧ l' = l ∧ env.ioErr :=
    Spec.pure (.inr ⟨osError, rfl, Loc.with_idle hfile, hio⟩)
  unfold insert
  refine Spec.disk_bind hfile fun tmp _ => ?_
  refine Spec.disk_bind rfl fun fd hfd => ?_
  cases fd with
  | none => exact hfail (hfd rfl)
  | some fd =>
      refine Spec.disk_bind ⟨tmp, rfl⟩ fun written hwritten => ?_
      cases written with
      | false => exact hfail (hwritten rfl)
      | true =>
          refine Spec.disk_bind trivial fun synced hsynced => ?_
          cases synced with
          | false => exact hfail (hsynced rfl)
          | true =>
              refine Spec.disk_bind ⟨fd, data, hjob, rfl, hkey, hgood⟩ fun renamed hrenamed => ?_
              cases renamed with
              | false => exact hfail (hrenamed rfl)
              | true =>
                  refine Spec.disk_bind ⟨data, hjob, rfl, rfl, hlanded⟩ fun _ _ => ?_
                  change Spec env { l with file := .idle, landed := true } _ _
                  refine Spec.pure (.inl ⟨rfl, ?_⟩)
                  rw [← hfile]

theorem remove_spec {key : ChunkKey} (hjob : l.job = .remove key) (hfile : l.file = .idle) :
    Spec env l (remove key) fun _ l' => l' = l := by
  unfold remove
  refine Spec.disk_bind ⟨hfile, hjob⟩ fun _ _ => ?_
  refine Spec.disk_bind ⟨rfl, hjob⟩ fun _ _ => ?_
  exact Spec.pure (Loc.with_idle hfile)

theorem findMissing_spec (keys : List ChunkKey) :
    Spec env l (findMissing keys) fun _ l' => l' = l := by
  induction keys with
  | nil => exact Spec.pure rfl
  | cons k keys ih =>
      unfold findMissing
      refine Spec.disk_bind trivial fun there _ => ?_
      refine Spec.bind ih ?_
      rintro missing l' rfl
      exact Spec.pure rfl

theorem reconcileWithDisk_spec (hjob : l.job.reconciles = true) :
    Spec env l reconcileWithDisk fun _ l' => l' = l := by
  unfold reconcileWithDisk
  refine Spec.disk_bind trivial fun keys _ => ?_
  refine Spec.bind (findMissing_spec keys) ?_
  rintro missing l' rfl
  split
  · exact Spec.pure rfl
  · refine Spec.disk_bind hjob fun counts _ => ?_
    exact Spec.disk_bind trivial fun _ _ => Spec.pure rfl

theorem sweep_spec (hjob : l.job.sweeps = true) (names : List String) :
    Spec env l (sweep names) fun _ l' => l' = l := by
  induction names with
  | nil => exact Spec.pure rfl
  | cons name names ih => exact Spec.disk_bind hjob fun _ _ => ih

theorem clearAll_spec (hjob : l.job.sweeps = true) :
    Spec env l clearAll fun r l' => l' = l ∧ ∃ counts, r = .ok counts := by
  unfold clearAll
  refine Spec.disk_bind hjob fun counts _ => ?_
  refine Spec.disk_bind trivial fun names _ => ?_
  refine Spec.bind (sweep_spec hjob names) ?_
  rintro _ l' rfl
  exact Spec.pure ⟨rfl, counts, rfl⟩

theorem noteLocalInsert_spec {key : ChunkKey} {data : Bytes}
    (hjob : l.job = .insertTask key data) (hlanded : l.landed = true)
    (hpushed : l.pushed = false) :
    Spec env l (noteLocalInsert (keyDigest cfg.sha256 key)) fun _ l' =>
      l' = { l with pushed := true, noted := true } := by
  unfold noteLocalInsert
  refine Spec.index_bind ⟨key, data, hjob, rfl, hlanded, hpushed⟩ fun _ => ?_
  refine Spec.index_bind ⟨key, data, hjob, rfl, rfl⟩ fun version => ?_
  exact ⟨trivial, fun _ _ => rfl⟩

theorem rebuildLocalFromCache_spec (hsnap : l.snap = none) :
    Spec env l (rebuildLocalFromCache cfg) fun _ l' => l' = l := by
  have hback : { l with snap := none } = l := by rw [← hsnap]
  unfold rebuildLocalFromCache
  refine ⟨hsnap, fun keys _ => ?_⟩
  refine Spec.index_bind ⟨keys, rfl, rfl⟩ fun version => ?_
  exact ⟨trivial, fun _ _ => hback⟩

theorem rebuildWork_spec (hjob : l.job = .rebuildWork) (hsnap : l.snap = none) :
    Spec env l (rebuildWork cfg) fun _ l' => l' = l := by
  unfold rebuildWork
  refine Spec.bind (reconcileWithDisk_spec (by rw [hjob]; rfl)) ?_
  rintro _ l' rfl
  refine Spec.bind (rebuildLocalFromCache_spec hsnap) ?_
  rintro _ l' rfl
  exact Spec.index_bind trivial fun _ => Spec.pure rfl

end BlobCache.Node
