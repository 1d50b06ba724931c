import BlobCache.Node.Replay
import BlobCache.Node.Shapes

/-!
The version of the local filter and the version that gossip advertises. The
filter changes only under its lock, together with its version; the advertised
version is stored later and by whoever comes, so that it can fall back to an
older one.
-/

namespace BlobCache.Node

open Cache Conc

variable {cfg : NodeConfig}

/-- The operations that change the filter. -/
def Op.bumps : Op → Bool
  | .index (.swapBloom _) | .index (.bloomInsert _) => true
  | _ => false

/-- The store into the membership. -/
abbrev announce (v : Nat) : effect.Op := Op.index (.setBloomVersion v)

/-- What an operation does to the versions and the filter. -/
inductive IndexMoved (t : Nat) (p p' : PeerIndex) : Op → Prop where
  | bump {o : Op} (ho : o.bumps = true) (hversion : p'.version = saturatingAdd p.version 1)
      (hme : p'.meBloomVersion = p.meBloomVersion)
      (hnoted : p'.noted = p.noted ∨ p'.noted = t :: p.noted) : IndexMoved t p p' o
  | announce (v : Nat) (hp : p' = { p with meBloomVersion := v }) :
      IndexMoved t p p' (announce v)
  | rest {o : Op} (ho : o.bumps = false) (hother : ∀ v, o ≠ announce v)
      (hversion : p'.version = p.version) (hbloom : p'.bloom = p.bloom)
      (hme : p'.meBloomVersion = p.meBloomVersion) (hnoted : p'.noted = p.noted) :
      IndexMoved t p p' o

theorem exec_moved {t : Nat} {o : Op} {ch : Choice} {s s' : State} {r : o.Resp}
    (h : exec cfg t o ch s = some (r, s')) : IndexMoved t s.index s'.index o := by
  cases o with
  | disk o =>
      have hsame := (exec_disk h).2.1
      exact .rest rfl nofun (by rw [hsame]) (by rw [hsame]) (by rw [hsame]) (by rw [hsame])
  | fetch o =>
      have hsame := (exec_fetch h).2.2
      exact .rest rfl nofun (by rw [hsame]) (by rw [hsame]) (by rw [hsame]) (by rw [hsame])
  | snapshotKeys =>
      have hsame := (exec_snapshotKeys h).2.2.2
      exact .rest rfl nofun (by rw [hsame]) (by rw [hsame]) (by rw [hsame]) (by rw [hsame])
  | index o =>
      have hex := congrArg Prod.snd (exec_index h).1
      change (s.index.exec cfg.index t o).2 = s'.index at hex
      rw [← hex]
      cases o with
      | swapBloom new => exact .bump rfl rfl rfl (.inl rfl)
      | bloomInsert digest => exact .bump rfl rfl rfl (.inr rfl)
      | setBloomVersion v => exact .announce v rfl
      | ingestRemote peerId version bytes =>
          obtain ⟨remote, heq⟩ := s.index.ingestRemote_eq peerId version bytes
          change IndexMoved t s.index (s.index.ingestRemote peerId version bytes).2 _
          rw [heq]
          exact .rest rfl nofun rfl rfl rfl rfl
      | _ => exact .rest rfl nofun rfl rfl rfl rfl

/-! ### The hook after each lock section -/

/-- The rest of a thread starts with the store of `v`. -/
def Announces {α : Type} (v : Nat) (p : NodeM α) : Prop := ∃ k, p = .op (announce v) k

/-- What changes the filter is followed by the store of the new version. -/
def hooked (cfg : NodeConfig) {α : Type} : (o : Op) → (o.Resp → NodeM α) → Prop
  | .index (.swapBloom new), k =>
      new.mBits = max cfg.bloomBits 64 ∧ ∀ v : Nat, Announces v (k v)
  | .index (.bloomInsert _), k => ∀ v : Nat, Announces v (k v)
  | _, _ => True

theorem Announces.bind {α β : Type} {v : Nat} {p : NodeM α} (h : Announces v p)
    (f : α → NodeM β) : Announces v (p.bind f) := by
  obtain ⟨k, rfl⟩ := h
  exact ⟨_, rfl⟩

def hookShape (cfg : NodeConfig) : Shape effect where
  op := hooked cfg
  resp _ _ := True
  job _ := True
  bind {_ _ o _} f h := by
    cases o with
    | index o =>
        cases o with
        | swapBloom new => exact ⟨h.1, fun v => (h.2 v).bind f⟩
        | bloomInsert digest => exact fun v => (h v).bind f
        | _ => trivial
    | _ => trivial

theorem hooked_of_not_bumps {α : Type} {o : Op} (h : o.bumps = false) (k : o.Resp → NodeM α) :
    hooked cfg o k := by
  cases o with
  | index o =>
      cases o with
      | swapBloom new => cases h
      | bloomInsert digest => cases h
      | _ => trivial
  | _ => trivial

theorem hookShape_local : LocalShape cfg (hookShape cfg) where
  plain o k h := by
    apply hooked_of_not_bumps
    cases o with
    | index o =>
        cases o with
        | swapBloom new => cases h
        | bloomInsert digest => cases h
        | _ => rfl
    | _ => rfl
  started _ _ := trivial
  note digest :=
    ⟨trivial, fun _ _ => ⟨fun _ => ⟨_, rfl⟩, fun _ _ => ⟨trivial, fun _ _ => trivial⟩⟩⟩
  rebuild := by
    refine ⟨trivial, fun keys _ => ⟨⟨?_, fun _ => ⟨_, rfl⟩⟩,
      fun _ _ => ⟨trivial, fun _ _ => trivial⟩⟩⟩
    exact Bloom.insertAll_mBits _ _
  served _ _ _ _ := trivial

theorem hookShape_node : NodeShape cfg (hookShape cfg) where
  toLocalShape := hookShape_local
  unpulled _ _ := trivial
  asked _ _ _ := trivial
  pulled _ _ _ _ _ _ _ _ _ _ := trivial
  leader key expectedLen yesCount alive _ :=
    hookShape_local.walk.askStampedeLeader key expectedLen yesCount alive
      fun _ _ _ _ _ => .perform (E := effect) trivial
  led _ _ _ _ _ _ _ := trivial

/-- In every run, each change of the filter is followed by its store. -/
theorem hooked_run {G : State → Event (machine cfg) → Prop} {c0 c : Config (machine cfg)}
    (h0 : c0.Shaped (hookShape cfg)) (h : Config.Reach G c0 c) : c.Shaped (hookShape cfg) :=
  h.shaped (fun j _ => hookShape_node.body j trivial) (fun _ _ _ _ _ _ _ _ => trivial) h0

/-- A thread that has changed the filter is about to store the version it got. -/
theorem announces_of_bump {t : Nat} {o : Op} {ch : Choice} {s s' : State} {r : o.Resp}
    {k : o.Resp → NodeM Val} (hex : exec cfg t o ch s = some (r, s')) (ho : o.bumps = true)
    (hk : hooked cfg o k) : Announces s'.index.version (k r) := by
  cases o with
  | index o =>
      have hex := (exec_index hex).1
      cases o with
      | swapBloom new =>
          have hv : s'.index.version = r :=
            (congrArg (fun x => x.2.version) hex).symm.trans (congrArg Prod.fst hex)
          rw [hv]
          exact hk.2 r
      | bloomInsert digest =>
          have hv : s'.index.version = r :=
            (congrArg (fun x => x.2.version) hex).symm.trans (congrArg Prod.fst hex)
          rw [hv]
          exact hk r
      | _ => cases ho
  | _ => cases ho

/-- A change of the filter keeps its size. -/
theorem mBits_of_bump {t : Nat} {o : Op} {ch : Choice} {s s' : State} {r : o.Resp}
    {k : o.Resp → NodeM Val} (hex : exec cfg t o ch s = some (r, s')) (ho : o.bumps = true)
    (hk : hooked cfg o k) (hs : s.index.bloom.mBits = max cfg.bloomBits 64) :
    s'.index.bloom.mBits = max cfg.bloomBits 64 := by
  cases o with
  | index o =>
      have hex := congrArg (fun x => x.2.bloom.mBits) (exec_index hex).1
      cases o with
      | swapBloom new =>
          have hsize : (new.insertAll s.index.pending).mBits = s'.index.bloom.mBits := hex
          rw [← hsize, Bloom.insertAll_mBits]
          exact hk.1
      | bloomInsert digest =>
          have hsize : (s.index.bloom.insert digest).mBits = s'.index.bloom.mBits := hex
          rw [← hsize, Bloom.insert_mBits]
          exact hs
      | _ => cases ho
  | _ => cases ho

/-! ### The filter and its version -/

theorem le_saturatingAdd {a : Nat} (h : a ≤ u64Max) : a ≤ saturatingAdd a 1 := by
  unfold saturatingAdd
  omega

theorem lt_saturatingAdd {a : Nat} (h : a < u64Max) : a < saturatingAdd a 1 := by
  unfold saturatingAdd
  omega

theorem saturatingAdd_le (a b : Nat) : saturatingAdd a b ≤ u64Max := Nat.min_le_right _ _

/-- The index after a step, for steps that leave the state or change it by an
operation. -/
theorem index_of_stepped {c c' : Config (machine cfg)} {e : Event (machine cfg)}
    (h : c.Stepped e c') :
    (c'.state.index = c.state.index ∧ ∀ t o ch, e ≠ .op t o ch) ∨
      ∃ (t : Nat) (th : Thread effect) (o : Op) (k : o.Resp → NodeM Val) (ch : Choice)
        (r : o.Resp), c.threads[t]? = some th ∧ th.status = .running (.op o k) ∧
        e = .op t o ch ∧ exec cfg t o ch c.state = some (r, c'.state) ∧
        c'.threads[t]? = some { th with status := .running (k r) } := by
  cases h with
  | op hth hp hex =>
      refine .inr ⟨_, _, _, _, _, _, hth, hp, rfl, hex, ?_⟩
      exact List.getElem?_set_self (Config.lt_of_thread hth)
  | _ => exact .inl ⟨rfl, fun _ _ _ heq => by cases heq⟩

theorem version_of_stepped {c c' : Config (machine cfg)} {e : Event (machine cfg)}
    (h : c.Stepped e c') :
    (c'.state.index.version = c.state.index.version ∧
        c'.state.index.bloom = c.state.index.bloom) ∨
      c'.state.index.version = saturatingAdd c.state.index.version 1 := by
  rcases index_of_stepped h with ⟨hsame, -⟩ | ⟨t, th, o, k, ch, r, -, -, -, hex, -⟩
  · rw [hsame]
    exact .inl ⟨rfl, rfl⟩
  · cases exec_moved hex with
    | bump ho hversion hme hnoted => exact .inr hversion
    | announce v hindex =>
        rw [hindex]
        exact .inl ⟨rfl, rfl⟩
    | rest ho hother hversion hbloom hme hnoted => exact .inl ⟨hversion, hbloom⟩

theorem version_le_of_reach {G : State → Event (machine cfg) → Prop}
    {c c' : Config (machine cfg)} (h : Config.Reach G c c')
    (hbound : c.state.index.version ≤ u64Max) :
    c.state.index.version ≤ c'.state.index.version ∧ c'.state.index.version ≤ u64Max := by
  induction h with
  | refl => exact ⟨le_rfl, hbound⟩
  | tail _ hstep _ ih =>
      rcases version_of_stepped (Config.stepped hstep) with ⟨hsame, -⟩ | hbump
      · rw [hsame]
        exact ih
      · rw [hbump]
        exact ⟨ih.1.trans (le_saturatingAdd ih.2), saturatingAdd_le _ _⟩

theorem version_bound {G : State → Event (machine cfg) → Prop} {c : Config (machine cfg)}
    (h : Config.Reach G (.init (State.new cfg)) c) : c.state.index.version ≤ u64Max :=
  (version_le_of_reach h (by decide : (1 : Nat) ≤ u64Max)).2

/-- As long as the version does not run out, it tells whether the filter has
changed. -/
theorem bloom_of_version {G : State → Event (machine cfg) → Prop}
    {c c' : Config (machine cfg)} (h : Config.Reach G c c')
    (hmax : c'.state.index.version < u64Max)
    (heq : c.state.index.version = c'.state.index.version) :
    c.state.index.bloom = c'.state.index.bloom := by
  induction h with
  | refl => rfl
  | @tail c1 c2 l e hreach hstep hg ih =>
      have hle := (version_le_of_reach hreach (heq ▸ hmax.le)).1
      rcases version_of_stepped (Config.stepped hstep) with ⟨hsame, hbloom⟩ | hbump
      · rw [hbloom]
        exact ih (hsame ▸ hmax) (hsame ▸ heq)
      · unfold saturatingAdd at hbump
        omega

/-- The filter has the size that the node is configured with. -/
theorem bloom_mBits {G : State → Event (machine cfg) → Prop} {c : Config (machine cfg)}
    (h : Config.Reach G (.init (State.new cfg)) c) :
    c.state.index.bloom.mBits = max cfg.bloomBits 64 := by
  induction h with
  | refl => rfl
  | @tail c1 c2 l e hreach hstep hg ih =>
      have hshaped := hooked_run (.init _ _) hreach
      rcases index_of_stepped (Config.stepped hstep) with
        ⟨hsame, -⟩ | ⟨t, th, o, k, ch, r, hth, hp, -, hex, -⟩
      · rw [hsame]
        exact ih
      · have hk := (hshaped t th _ hth trivial hp).1
        by_cases ho : o.bumps = true
        · exact mBits_of_bump hex ho hk ih
        · cases exec_moved hex with
          | bump ho' => exact absurd ho' ho
          | announce v hindex =>
              rw [hindex]
              exact ih
          | rest _ _ _ hbloom => rw [hbloom, ih]

/-! ### The advertised version -/

/-- The thread is about to store `v`. -/
def AnnouncingAt (c : Config (machine cfg)) (t v : Nat) : Prop :=
  ∃ (th : Thread effect) (p : NodeM Val),
    c.threads[t]? = some th ∧ th.status = .running p ∧ Announces v p

/-- A thread is about to store `v`. -/
def Announcing (c : Config (machine cfg)) (v : Nat) : Prop := ∃ t, AnnouncingAt c t v

/-- A thread about to store a version stays there until it does. -/
theorem AnnouncingAt.step {c c' : Config (machine cfg)} {e : Event (machine cfg)} {t v : Nat}
    (h : AnnouncingAt c t v) (hstep : c.Stepped e c') :
    AnnouncingAt c' t v ∨ ∃ ch, e = .op t (announce v) ch := by
  obtain ⟨th, p, hth, hp, k, rfl⟩ := h
  rcases hstep.of_op hth hp with hstays | ⟨ch, rfl⟩ | hcancel
  · exact .inl ⟨th, _, hstays, hp, k, rfl⟩
  · exact .inr ⟨ch, rfl⟩
  · exact absurd hcancel (by simp [machine, atAwait])

/-- Each store is of the version that the filter still has. -/
def storesCurrent (s : State) : Event (machine cfg) → Prop
  | .op _ (.index (.setBloomVersion v)) _ => v = s.index.version
  | _ => True

/-- The advertised version is behind only while its store is to come. -/
structure Announced (c : Config (machine cfg)) : Prop where
  shaped : c.Shaped (hookShape cfg)
  bound : c.state.index.version ≤ u64Max
  le : c.state.index.meBloomVersion ≤ c.state.index.version
  current : c.state.index.version = 1 ∨
    c.state.index.meBloomVersion = c.state.index.version ∨
      Announcing c c.state.index.version

theorem Announced.step {c c' : Config (machine cfg)} {e : Event (machine cfg)}
    (h : Announced c) (hshaped : c'.Shaped (hookShape cfg)) (hstep : c.Stepped e c')
    (hcurrent : storesCurrent c.state e) : Announced c' := by
  have hstays : (∀ v t ch, e ≠ .op t (announce v) ch) → c.state.index.version = 1 ∨
      c.state.index.meBloomVersion = c.state.index.version ∨
        Announcing c' c.state.index.version := by
    intro hother
    rcases h.current with hnone | hme | hannouncing
    · exact .inl hnone
    · exact .inr (.inl hme)
    · obtain ⟨t, ht⟩ := hannouncing
      rcases ht.step hstep with hlater | ⟨ch, he⟩
      · exact .inr (.inr ⟨t, hlater⟩)
      · exact absurd he (hother _ t ch)
  rcases index_of_stepped hstep with ⟨hsame, hnone⟩ | ⟨t, th, o, k, ch, r, hth, hp, rfl, hex, hth'⟩
  · refine ⟨hshaped, ?_, ?_, ?_⟩ <;> rw [hsame]
    · exact h.bound
    · exact h.le
    · exact hstays fun v t ch => hnone t (announce v) ch
  · cases exec_moved hex with
    | bump ho hversion hme hnoted =>
        refine ⟨hshaped, ?_, ?_, .inr (.inr ?_)⟩
        · rw [hversion]
          exact saturatingAdd_le _ _
        · rw [hversion, hme]
          exact h.le.trans (le_saturatingAdd h.bound)
        · have hk := (h.shaped t th _ hth trivial hp).1
          exact ⟨t, _, k r, hth', rfl, announces_of_bump hex ho hk⟩
    | announce v hindex =>
        have hv : v = c.state.index.version := hcurrent
        have hversion : c'.state.index.version = c.state.index.version := by rw [hindex]
        have hme : c'.state.index.meBloomVersion = c.state.index.version := by
          rw [hindex]
          exact hv
        refine ⟨hshaped, ?_, ?_, .inr (.inl ?_)⟩
        · rw [hversion]
          exact h.bound
        · rw [hversion, hme]
        · rw [hversion, hme]
    | rest ho hother hversion hbloom hme hnoted =>
        refine ⟨hshaped, ?_, ?_, ?_⟩
        · rw [hversion]
          exact h.bound
        · rw [hversion, hme]
          exact h.le
        · rw [hversion, hme]
          apply hstays
          rintro v u ch' heq
          cases heq
          exact hother v rfl

theorem Announced.run {c c' : Config (machine cfg)} (h : Announced c)
    (hrun : Config.Reach storesCurrent c c') :
    Announced c' ∧ c.state.index.meBloomVersion ≤ c'.state.index.meBloomVersion := by
  induction hrun with
  | refl => exact ⟨h, le_rfl⟩
  | @tail c1 c2 l e hreach hstep hcurrent ih =>
      have hstepped := Config.stepped hstep
      have hshaped := hooked_run ih.1.shaped (.tail .refl hstep hcurrent)
      refine ⟨ih.1.step hshaped hstepped hcurrent, ih.2.trans ?_⟩
      rcases index_of_stepped hstepped with ⟨hsame, -⟩ | ⟨t, th, o, k, ch, r, -, -, rfl, hex, -⟩
      · rw [hsame]
      · cases exec_moved hex with
        | bump ho hversion hme hnoted => rw [hme]
        | announce v hindex =>
            have hv : v = c1.state.index.version := hcurrent
            rw [hindex, hv]
            exact ih.1.le
        | rest ho hother hversion hbloom hme hnoted => rw [hme]

theorem Announced.new (cfg : NodeConfig) :
    Announced (.init (State.new cfg) : Config (machine cfg)) where
  shaped := .init _ _
  bound := (by decide : (1 : Nat) ≤ u64Max)
  le := Nat.zero_le _
  current := .inl rfl

/-- The advertised version never decreases, and once no thread is between its
lock section and its store it is the version of the filter, as long as every
store comes before the next change of the filter. -/
theorem advertised_version_current {c : Config (machine cfg)}
    (hrun : Config.Reach storesCurrent (.init (State.new cfg)) c) :
    (∀ c', Config.Reach storesCurrent c c' →
      c.state.index.meBloomVersion ≤ c'.state.index.meBloomVersion) ∧
      (c.state.index.version ≠ 1 → (∀ v, ¬ Announcing c v) →
        c.state.index.meBloomVersion = c.state.index.version) := by
  have hann := ((Announced.new cfg).run hrun).1
  refine ⟨fun c' hrun' => (hann.run hrun').2, ?_⟩
  intro hchanged hquiet
  rcases hann.current with hnone | hme | hannouncing
  · exact absurd hnone hchanged
  · exact hme
  · exact absurd hannouncing (hquiet _)

/-- Two chunks are stored one after the other. -/
def storeBoth : List (Label (machine sampleConfig)) :=
  [.start (Job.insertReceivedChunk (sampleKey 0) [1, 2, 3, 4])] ++ storeTurns 0 ++
    [.start (Job.insertReceivedChunk (sampleKey 1) [5, 6, 7])] ++ storeTurns 3

def currentGate (s : State) : Event (machine sampleConfig) → Bool
  | .op _ (.index (.setBloomVersion v)) _ => v = s.index.version
  | _ => true

theorem storesCurrent_of_gate (s : State) (e : Event (machine sampleConfig))
    (h : currentGate s e = true) : storesCurrent s e := by
  unfold currentGate at h
  split at h
  · have heq := of_decide_eq_true h
    exact heq
  · rename_i hother
    unfold storesCurrent
    split
    · exact absurd rfl (hother _ _ _)
    · trivial

theorem not_announcing_of_quiescent {c : Config (machine cfg)} (h : c.quiescent = true) (v : Nat) :
    ¬ Announcing c v := by
  rintro ⟨t, th, p, hth, hp, -⟩
  have hfinished := Config.finished_of_quiescent h hth
  simp [Thread.finished, hp] at hfinished

theorem advertised_version_current_after_two :
    ∃ c : Config (machine sampleConfig),
      Config.Reach storesCurrent (.init (State.new sampleConfig)) c ∧ c.quiescent = true ∧
        c.state.index.version = 3 ∧ c.state.index.meBloomVersion = 3 := by
  obtain ⟨c, hrun, hc⟩ := Config.reach_of_replay (M := machine sampleConfig)
    (G := currentGate) (H := storesCurrent) storesCurrent_of_gate
    (.init (State.new sampleConfig)) storeBoth
    (fun c => c.quiescent && decide (c.state.index.version = 3)) (by decide +kernel)
  simp only [Bool.and_eq_true, decide_eq_true_eq] at hc
  obtain ⟨hquiet, hversion⟩ := hc
  have hcurrent := (advertised_version_current hrun).2 (by rw [hversion]; decide)
    (not_announcing_of_quiescent hquiet)
  exact ⟨c, hrun, hquiet, hversion, hcurrent.trans hversion⟩

/-- The first chunk's task stops between its lock section and its store, and the
second chunk is stored in between. -/
def overtakenStores : List (Label (machine sampleConfig)) :=
  [.start (Job.insertReceivedChunk (sampleKey 0) [1, 2, 3, 4])] ++ turns 0 3 ++ turns 1 1 ++
    turns 2 7 ++ turns 1 3 ++
    [.start (Job.insertReceivedChunk (sampleKey 1) [5, 6, 7])] ++ storeTurns 3

/-- All is done, and an older version than the filter's is advertised. -/
def fellBack (c : Config (machine sampleConfig)) : Bool :=
  c.quiescent && decide (c.state.index.version = 3) && decide (c.state.index.meBloomVersion = 2)

/-- The store that was overtaken puts the older version back, and it stays. -/
theorem overtaken_store_falls_back :
    ∃ c c' : Config (machine sampleConfig),
      Config.Reach (fun _ _ => True) (.init (State.new sampleConfig)) c ∧
        Config.Reach (fun _ _ => True) c c' ∧ c'.quiescent = true ∧
        c'.state.index.version = 3 ∧ c'.state.index.meBloomVersion = 2 ∧
        c'.state.index.meBloomVersion < c.state.index.meBloomVersion := by
  obtain ⟨c, hrun, hc⟩ := Config.reach_of_labels (M := machine sampleConfig)
    (.init (State.new sampleConfig)) overtakenStores
    (fun c => decide (c.state.index.meBloomVersion = 3) &&
      (c.replay (fun _ _ => true) (turns 1 3)).any fellBack)
    (by decide +kernel)
  simp only [Bool.and_eq_true, decide_eq_true_eq] at hc
  obtain ⟨c', hrun', hc'⟩ := Config.reach_of_labels (M := machine sampleConfig) c (turns 1 3)
    fellBack hc.2
  simp only [fellBack, Bool.and_eq_true, decide_eq_true_eq] at hc'
  obtain ⟨⟨hquiet, hversion⟩, hme⟩ := hc'
  refine ⟨c, c', hrun, hrun', hquiet, hversion, hme, ?_⟩
  rw [hme, hc.1]
  decide

end BlobCache.Node
