import BlobCache.Cache.Dir
import BlobCache.Conc.Eval
import BlobCache.Node.Replay

/-!
The methods of `DiskCache` called one at a time. The first result is about an
`insert` that fails. The steps before the first change in memory can each end
it early, and nothing removes the temporary file then, so that only a failure to
create it leaves no trace.
-/

namespace BlobCache.Node

open Cache Conc

variable {cfg : NodeConfig} {env : Op → Choice} {t : Nat}
  {child : Job → State → Option (Val × State)} {s : State} {α : Type}

/-- No call into the disk cache blocks. -/
theorem yields_disk_bind {o : DiskOp} {f : o.Resp → NodeM α} {R : α → State → Prop}
    (hf : ∀ r d, s.disk.exec cfg.disk t (env (.disk o)).disk o = (r, d) →
      (f r).Yields (machine cfg) env t child { s with disk := d } R) :
    (disk o >>= f).Yields (machine cfg) env t child s R :=
  .perform_bind rfl (hf _ _ rfl)

/-! ## A failed insert -/

/-- What a call leaves as it was: the index, the counters and the files. -/
structure Untouched (d d' : Disk) : Prop where
  inner : d'.inner = d.inner
  stats : d'.stats = d.stats
  files : ∀ name, d'.dir.file name = d.dir.file name

/-- The temporary name that a call of `insert` draws. -/
def insertTmp (cfg : NodeConfig) (env : Op → Choice) (d : Disk) : String :=
  tmpName cfg.pid (env (.disk .tmpName)).disk.nanos d.tmpSeq

/-- `File::create` fails. -/
def createFails (cfg : NodeConfig) (env : Op → Choice) (d : Disk) : Prop :=
  (env (.disk (.create (insertTmp cfg env d)))).disk.ioError = true

/-- The choice of the environment for the write of a call of `insert`. -/
def writeChoice (cfg : NodeConfig) (env : Op → Choice) (d : Disk) (data : Bytes) : DiskChoice :=
  (env (.disk (.writeAll (d.dir.create (insertTmp cfg env d)).1 data))).disk

/-- What is in the temporary file when a call of `insert` fails after creating it. -/
def leftBehind (cfg : NodeConfig) (env : Op → Choice) (d : Disk) (data : Bytes) : Bytes :=
  if (writeChoice cfg env d data).ioError then data.take (writeChoice cfg env d data).written
  else data

/-- How a call of `insert` fails: the index and the counters are as before, and so
is the directory if the temporary file was not created; otherwise it is there, with
what was written. -/
structure InsertFailed (cfg : NodeConfig) (env : Op → Choice) (data : Bytes) (d d' : Disk) :
    Prop where
  inner : d'.inner = d.inner
  stats : d'.stats = d.stats
  dir : createFails cfg env d ∧ d'.dir = d.dir ∨ ¬ createFails cfg env d ∧
    d'.dir = (d.dir.create (insertTmp cfg env d)).2.append
      (d.dir.create (insertTmp cfg env d)).1 (leftBehind cfg env d data)

theorem insert_yields (key : ChunkKey) (data : Bytes) :
    (insert key data).Yields (machine cfg) env t child s fun r s' =>
      ∀ e, r = .error e → InsertFailed cfg env data s.disk s'.disk := by
  refine yields_disk_bind fun tmp d₁ hexec => ?_
  cases hexec
  refine yields_disk_bind fun fd d₂ hexec => ?_
  simp only [Disk.exec, Disk.create] at hexec
  split at hexec
  · rename_i hfails
    cases hexec
    apply Program.Yields.pure
    intro e _
    exact ⟨rfl, rfl, .inl ⟨hfails, rfl⟩⟩
  · rename_i hcreated
    cases hexec
    refine yields_disk_bind fun written d₃ hexec => ?_
    simp only [Disk.exec, Disk.writeAll] at hexec
    split at hexec
    · rename_i hwrite
      cases hexec
      have hleft : leftBehind cfg env s.disk data =
          data.take (writeChoice cfg env s.disk data).written := if_pos hwrite
      apply Program.Yields.pure
      intro e _
      refine ⟨rfl, rfl, .inr ⟨hcreated, ?_⟩⟩
      rw [hleft]
      rfl
    · rename_i hwrite
      cases hexec
      have hleft : leftBehind cfg env s.disk data = data := if_neg hwrite
      have hwritten : InsertFailed cfg env data s.disk
          { s.disk with
            dir := (s.disk.dir.create (insertTmp cfg env s.disk)).2.append
              (s.disk.dir.create (insertTmp cfg env s.disk)).1 data
            tmpSeq := s.disk.tmpSeq + 1 } :=
        ⟨rfl, rfl, .inr ⟨hcreated, by rw [hleft]⟩⟩
      refine yields_disk_bind fun synced d₄ hexec => ?_
      cases hexec
      dsimp only
      split
      · apply Program.Yields.pure
        intro e _
        exact hwritten
      · refine yields_disk_bind fun renamed d₅ hexec => ?_
        simp only [Disk.exec, Disk.rename] at hexec
        split at hexec
        · cases hexec
          apply Program.Yields.pure
          intro e _
          exact hwritten
        · split at hexec
          · cases hexec
            apply Program.Yields.pure
            intro e _
            exact hwritten
          · cases hexec
            refine yields_disk_bind fun _ _ _ => ?_
            apply Program.Yields.pure
            intro e he
            cases he

theorem Untouched.iff_of_insertFailed {data : Bytes} {d d' : Disk} (hdir : d.dir.Sound)
    (h : InsertFailed cfg env data d d') :
    Untouched d d' ↔ createFails cfg env d ∨
      d.dir.file (insertTmp cfg env d) = some (leftBehind cfg env d data) := by
  rcases h.dir with ⟨hfails, hsame⟩ | ⟨hcreated, hleft⟩
  · have huntouched : Untouched d d' := ⟨h.inner, h.stats, fun name => by rw [hsame]⟩
    exact ⟨fun _ => .inl hfails, fun _ => huntouched⟩
  · have hfiles (name : String) : d'.dir.file name =
        if name = insertTmp cfg env d then some (leftBehind cfg env d data)
        else d.dir.file name := by
      rw [hleft, hdir.file_create_append]
    constructor
    · intro huntouched
      right
      rw [← huntouched.files, hfiles, if_pos rfl]
    · rintro (hfails | hthere)
      · exact absurd hfails hcreated
      · refine ⟨h.inner, h.stats, ?_⟩
        intro name
        rw [hfiles]
        split
        · rename_i hname
          rw [hname, hthere]
        · rfl

/-- In every state that any run reaches, every name has a file of its own. -/
theorem sound_reach {G : State → Event (machine cfg) → Prop} {c : Config (machine cfg)}
    (hrun : Config.Reach G (.init (State.new cfg)) c) : c.state.disk.dir.Sound := by
  apply disk_inv_reach (P := fun d => d.dir.Sound) _ Dir.Sound.empty hrun
  intro d t ch o hd
  exact Disk.sound_exec hd t ch o

/-- A call of `insert` that fails leaves no trace if and only if it could not create
the temporary file, or a file of that very name was there before and already held
what the call leaves in it. The directory is as `sound_reach` has it in every run. -/
theorem failed_insert_untouched_iff (hdir : s.disk.dir.Sound) {key : ChunkKey} {data : Bytes}
    {e : BcError} {s' : State}
    (h : (insert key data).evalWith (machine cfg) env t child s = some (.error e, s')) :
    Untouched s.disk s'.disk ↔ createFails cfg env s.disk ∨
      s.disk.dir.file (insertTmp cfg env s.disk) = some (leftBehind cfg env s.disk data) :=
  Untouched.iff_of_insertFailed hdir ((insert_yields key data).result h e rfl)

/-- The disk fills up after two bytes. -/
def diskFull : Op → Choice
  | .disk (.writeAll _ _) => { Choice.benign with disk := { DiskChoice.benign with
      ioError := true, written := 2 } }
  | _ => .benign

/-- The temporary file cannot be created. -/
def readOnly : Op → Choice
  | .disk (.create _) => { Choice.benign with disk := { DiskChoice.benign with ioError := true } }
  | _ => .benign

/-- The node has stored a chunk, and cannot store another one. -/
theorem failed_insert_untouched_iff_readOnly :
    ∃ (c : Config (machine sampleConfig)) (s' : State),
      Config.Reach (fun _ _ => True) (.init (State.new sampleConfig)) c ∧
      c.state.disk.inner.entries.keys = [sampleKey 0] ∧
      (insert (sampleKey 1) [1, 2, 3]).evalWith (machine sampleConfig) readOnly 0
        (fun _ _ => none) c.state = some (.error osError, s') ∧
      Untouched c.state.disk s'.disk := by
  obtain ⟨c, hrun, hkeys⟩ := Config.reach_of_labels (M := machine sampleConfig)
    (.init (State.new sampleConfig))
    ([.start (.insertReceivedChunk (sampleKey 0) [1, 2, 3, 4])] ++ storeTurns 0)
    (fun c => decide (c.state.disk.inner.entries.keys = [sampleKey 0])) (by decide +kernel)
  obtain ⟨s', heval⟩ : ∃ s', (insert (sampleKey 1) [1, 2, 3]).evalWith (machine sampleConfig)
      readOnly 0 (fun _ _ => none) c.state = some (.error osError, s') := ⟨_, rfl⟩
  have hfails : createFails sampleConfig readOnly c.state.disk := rfl
  refine ⟨c, s', hrun, of_decide_eq_true hkeys, heval, ?_⟩
  exact (failed_insert_untouched_iff (sound_reach hrun) heval).mpr (.inl hfails)

theorem failed_insert_leaves_tmp :
    ∃ s', (insert (sampleKey 0) [1, 2, 3]).evalWith (machine sampleConfig) diskFull 0
        (fun _ _ => none) (State.new sampleConfig) = some (.error osError, s') ∧
      s'.disk.dir.file ".tmp.1.0.0" = some [1, 2] ∧
      ¬ Untouched (State.new sampleConfig).disk s'.disk := by
  refine ⟨_, rfl, by decide, ?_⟩
  intro huntouched
  have hfile := huntouched.files ".tmp.1.0.0"
  revert hfile
  decide

end BlobCache.Node
