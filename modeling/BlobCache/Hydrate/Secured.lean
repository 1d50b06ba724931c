import BlobCache.Fetcher.Custody
import BlobCache.Node.Notes
import BlobCache.Node.Promises

/-!
Chunks that are on their way into the cache. A chunk is secured while it is in
`inflight_writes`, once an insert of it has passed the lock, and, for those who
look at them, when its failure has been recorded. Wherever the node finds a
secured chunk, and whatever it tells a thread about it, the chunk stays secured,
as long as the operations do what is permitted.
-/

namespace BlobCache.Hydrate

open Conc Node Cache

/-- An insert of the chunk has succeeded: it has passed the lock of the cache. -/
def Stored (s : State) (k : ChunkKey) : Prop := s.disk.lastInsert.get? k ≠ none

/-- The list of failures names the chunk, or has no room left to name it. -/
def Noted (s : State) (k : ChunkKey) : Prop :=
  FetchState.maxRecordedInsertFailures ≤ s.fetch.insertFailures.length ∨
    ∃ e, (k, e) ∈ s.fetch.insertFailures

section States

variable (A : List ChunkKey) (listed : Bool)

/-- No insert of the chunk is awaited any more. Whether a recorded failure
counts is a parameter. -/
def Over (s : State) (k : ChunkKey) : Prop := Stored s k ∨ (listed = true ∧ Noted s k)

def Secured (s : State) (k : ChunkKey) : Prop :=
  s.fetch.inflightWrites.get? k ≠ none ∨ Over listed s k

/-- Wherever the node finds one of the chunks of `A`, the chunk is secured. -/
structure Sources (s : State) : Prop where
  index : ∀ k, s.disk.size? k ≠ none → Stored s k
  lru : ∀ k ∈ A, s.fetch.lruHas k = none
  mapped : s.fetch.Mapped
  sent : ∀ (i : Nat) (slot : Slot) (d : Bytes), s.fetch.slots[i]? = some slot →
    .ok d ∈ slot.sent → slot.key ∈ A → Secured listed s slot.key

/-- What a thread knows is so. -/
structure Backed (s : State) (l : Tally) : Prop where
  promised : ∀ k ∈ l.promised, k ∈ A → Secured listed s k
  slots : ∀ (k : ChunkKey) (i : Nat), (k, i) ∈ l.slots →
    ∃ slot : Slot, s.fetch.slots[i]? = some slot ∧ slot.key = k
  settled : ∀ k ∈ l.settled, k ∈ A → Over listed s k
  landed : ∀ k ∈ l.landed, k ∈ A → Stored s k

/-- A step that takes nothing away. -/
structure Preserves (s s' : State) : Prop where
  stored : ∀ k, Stored s k → Stored s' k
  noted : listed = true → ∀ k ∈ A, Noted s k → Noted s' k
  writes : ∀ k ∈ A, s.fetch.inflightWrites.get? k ≠ none → Secured listed s' k
  slots : ∀ (i : Nat) (slot : Slot), s.fetch.slots[i]? = some slot →
    ∃ slot' : Slot, s'.fetch.slots[i]? = some slot' ∧ slot'.key = slot.key

end States

variable {A : List ChunkKey} {listed : Bool} {s s' : State} {l : Tally}

namespace Preserves

theorem stillOver (h : Preserves A listed s s') {k : ChunkKey} (hk : k ∈ A)
    (hover : Over listed s k) : Over listed s' k := by
  rcases hover with hstored | ⟨hlisted, hnoted⟩
  · exact .inl (h.stored k hstored)
  · exact .inr ⟨hlisted, h.noted hlisted k hk hnoted⟩

theorem secured (h : Preserves A listed s s') {k : ChunkKey} (hk : k ∈ A)
    (hsecured : Secured listed s k) : Secured listed s' k := by
  rcases hsecured with hwrites | hover
  · exact h.writes k hk hwrites
  · exact .inr (h.stillOver hk hover)

theorem backed (h : Preserves A listed s s') (hl : Backed A listed s l) : Backed A listed s' l where
  promised k hk hA := h.secured hA (hl.promised k hk hA)
  slots k i hi := by
    obtain ⟨slot, hslot, hkey⟩ := hl.slots k i hi
    obtain ⟨slot', hslot', hkey'⟩ := h.slots i slot hslot
    exact ⟨slot', hslot', hkey'.trans hkey⟩
  settled k hk hA := h.stillOver hA (hl.settled k hk hA)
  landed k hk hA := h.stored k (hl.landed k hk hA)

/-- A step of the disk. -/
theorem of_stored (hstored : ∀ k, Stored s k → Stored s' k) (hfetch : s'.fetch = s.fetch) :
    Preserves A listed s s' := by
  constructor
  · exact hstored
  · intro _ k _ hk
    rw [Noted, hfetch]
    exact hk
  · intro k _ hk
    rw [Secured, hfetch]
    exact .inl hk
  · intro i slot hslot
    rw [hfetch]
    exact ⟨slot, hslot, rfl⟩

/-- The disk and the fetcher's chunks are untouched. -/
theorem of_eq (hdisk : s'.disk = s.disk) (hfetch : s'.fetch = s.fetch) :
    Preserves A listed s s' := by
  apply of_stored _ hfetch
  intro k hk
  rw [Stored, hdisk]
  exact hk

end Preserves

/-! What a thread learns is backed when it is so. -/

namespace Backed

theorem init : Backed A listed s {} where
  promised := by simp
  slots := by simp
  settled := by simp
  landed := by simp

theorem promise (h : Backed A listed s l) (ks : List ChunkKey)
    (hks : ∀ k ∈ ks, k ∈ A → Secured listed s k) :
    Backed A listed s { l with promised := ks ++ l.promised } :=
  { h with promised := List.forall_mem_append.mpr ⟨hks, h.promised⟩ }

theorem settle (h : Backed A listed s l) (ks : List ChunkKey)
    (hks : ∀ k ∈ ks, k ∈ A → Over listed s k) :
    Backed A listed s { l with settled := ks ++ l.settled } :=
  { h with settled := List.forall_mem_append.mpr ⟨hks, h.settled⟩ }

theorem land (h : Backed A listed s l) (ks : List ChunkKey)
    (hks : ∀ k ∈ ks, k ∈ A → Stored s k) :
    Backed A listed s { l with landed := ks ++ l.landed } :=
  { h with landed := List.forall_mem_append.mpr ⟨hks, h.landed⟩ }

end Backed

/-- The slots and the LRU after a step that takes nothing away. -/
theorem Sources.step (h : Sources A listed s) (hpres : Preserves A listed s s')
    {sends : ChunkKey → Message → Prop}
    (hindex : ∀ k, s'.disk.size? k ≠ none → Stored s' k)
    (hlru : ∀ k ∈ A, s'.fetch.lruHas k = none)
    (hslots : FetchState.SlotStep s.fetch s'.fetch sends)
    (hsends : ∀ k d, sends k (.ok d) → k ∈ A → Secured listed s' k) : Sources A listed s' where
  index := hindex
  lru := hlru
  mapped := hslots.mapped
  sent i slot d hslot hd hA := by
    rcases hslots.source i slot _ hslot hd with ⟨old, hold, hkey, hmem⟩ | hsend
    · rw [← hkey] at hA ⊢
      exact hpres.secured hA (h.sent i old d hold hmem hA)
    · exact hsends _ d hsend hA

/-- A step that leaves the fetcher alone. -/
theorem Sources.elsewhere (h : Sources A listed s) (hpres : Preserves A listed s s')
    (hindex : ∀ k, s'.disk.size? k ≠ none → Stored s' k) (hfetch : s'.fetch = s.fetch) :
    Sources A listed s' := by
  have hslots : FetchState.SlotStep s.fetch s'.fetch fun _ _ => False :=
    .of_eq h.mapped (congrArg FetchState.slots hfetch) (congrArg FetchState.inflight hfetch)
  apply h.step hpres hindex _ hslots
  · intro _ _ hsend
    exact hsend.elim
  · rw [hfetch]
    exact h.lru

/-! ## The operations of the node -/

/-- What an operation of the fetcher may not do to the chunks of `A`: put one
into the LRU of peer chunks, give up the pending write of one, or fail to insert
one when recorded failures do not count. -/
def Permitted (A : List ChunkKey) (listed : Bool) (s : State) : FetchOp → Prop
  | .lruPut key _ => key ∉ A
  | .writesClear => ∀ k ∈ A, s.fetch.inflightWrites.get? k = none
  | .recordInsertFailure key _ => listed = true ∨ key ∉ A
  | _ => True

section Ops

variable {cfg : NodeConfig} {t : Nat}

/-- An operation keeps the sources and what its thread and the others know. -/
structure StepOk (A : List ChunkKey) (listed : Bool) (s s' : State) (l : Tally) : Prop where
  preserves : Preserves A listed s s'
  sources : Sources A listed s'
  backed : Backed A listed s' l

theorem idle_sound (h : Sources A listed s) (hl : Backed A listed s l)
    (hdisk : s'.disk = s.disk) (hfetch : s'.fetch = s.fetch) : StepOk A listed s s' l := by
  have hpres : Preserves A listed s s' := .of_eq hdisk hfetch
  refine ⟨hpres, h.elsewhere hpres ?_ hfetch, hpres.backed hl⟩
  intro k hk
  rw [hdisk] at hk
  exact hpres.stored k (h.index k hk)

theorem disk_sound (h : Sources A listed s) (hl : Backed A listed s l) {c : DiskChoice}
    {o : DiskOp} {r : o.Resp} (hex : s.disk.exec cfg.disk t c o = (r, s'.disk))
    (hfetch : s'.fetch = s.fetch) : StepOk A listed s s' (l.disk o r) := by
  have hstored : ∀ k, Stored s k → Stored s' k := by
    intro k hk
    rcases lastInsert_exec hex with hsame | ⟨key, n, -, hput⟩
    · rw [Stored, hsame]
      exact hk
    · rw [Stored, hput, FinMap.get?_insert]
      split
      · simp
      · exact hk
  have hpres : Preserves A listed s s' := .of_stored hstored hfetch
  have hinserted : ∀ k n, o = .insertSection k n → Stored s' k := by
    rintro k n rfl
    have hdisk : s.disk.insertSection cfg.disk t k n c.stuck = s'.disk := congrArg Prod.snd hex
    rw [Stored, ← hdisk]
    change (s.disk.lastInsert.insert k t).get? k ≠ none
    simp
  have hindex : ∀ k, s'.disk.size? k ≠ none → Stored s' k := by
    intro k hk
    obtain ⟨n, hn⟩ := Option.ne_none_iff_exists'.mp hk
    have hdisk : (s.disk.exec cfg.disk t c o).2 = s'.disk := congrArg Prod.snd hex
    rw [← hdisk] at hn
    rcases Disk.size?_of_exec k hn with hold | rfl
    · exact hstored k (h.index k (by simp [hold]))
    · exact hinserted k n rfl
  have hsources := h.elsewhere hpres hindex hfetch
  have hback := hpres.backed hl
  refine ⟨hpres, hsources, ?_⟩
  unfold Tally.disk
  split
  · rename_i key
    -- the index had the chunk when it was asked
    have hsize : s.disk.size? key ≠ none := by
      have hsome : (s.disk.inner.entries.get? key).isSome = true := congrArg Prod.fst hex
      rw [Disk.size?]
      intro hnone
      rw [Option.map_eq_none_iff] at hnone
      rw [hnone] at hsome
      cases hsome
    apply hback.promise [key]
    rw [List.forall_mem_singleton]
    intro _
    exact .inr (.inl (hstored key (h.index key hsize)))
  · rename_i key n _
    apply hback.land [key]
    rw [List.forall_mem_singleton]
    intro _
    exact hinserted key n rfl
  · exact hback

section Fetch

variable {c : FetchChoice} {o : FetchOp} {r : o.Resp}

/-- A recorded failure stays recorded, and there is room or not. -/
theorem noted_record {k : ChunkKey}
    (hfail : s'.fetch.insertFailures = s.fetch.failuresAfter o) (h : Noted s k) : Noted s' k := by
  rw [Noted, hfail]
  cases o with
  | recordInsertFailure key err =>
      simp only [FetchState.failuresAfter, FetchState.recordInsertFailure]
      split
      · rcases h with hfull | ⟨e, he⟩
        · refine .inl ?_
          rw [List.length_append]
          omega
        · exact .inr ⟨e, List.mem_append_left _ he⟩
      · exact h
  | _ => exact h

theorem noted_of_record {key : ChunkKey} {err : String}
    (hfail : s'.fetch.insertFailures = s.fetch.failuresAfter (.recordInsertFailure key err)) :
    Noted s' key := by
  rw [Noted, hfail]
  simp only [FetchState.failuresAfter, FetchState.recordInsertFailure]
  split
  · exact .inr ⟨err, List.mem_append_right _ List.mem_cons_self⟩
  · exact .inl (by omega)

theorem fetch_preserves (h : Sources A listed s) (hl : Backed A listed s l)
    (hex : s.fetch.exec cfg.rdma t c o = some (r, s'.fetch)) (hdisk : s'.disk = s.disk)
    (hpre : promisePre l (.fetch o)) (hcond : Permitted A listed s o) :
    Preserves A listed s s' := by
  obtain ⟨hwrites, -, -⟩ := FetchState.exec_frame hex
  obtain ⟨hfail, -⟩ := FetchState.exec_failures hex
  have hstored : ∀ k, Stored s k → Stored s' k := by
    intro k hk
    rw [Stored, hdisk]
    exact hk
  refine ⟨hstored, fun _ k _ => noted_record hfail, ?_, (FetchState.exec_slots h.mapped hex).keeps⟩
  intro k hA hk
  rw [Secured, hwrites]
  cases o with
  | writesInsert key data =>
      refine .inl ?_
      simp only [FetchState.writesAfter, FinMap.get?_insert]
      split
      · simp
      · exact hk
  | writesRemove key =>
      by_cases heq : k = key
      · -- the task knows that the insert is over
        subst heq
        rcases hl.settled k hpre hA with hin | ⟨hlisted, hnoted⟩
        · exact .inr (.inl (hstored k hin))
        · exact .inr (.inr ⟨hlisted, noted_record hfail hnoted⟩)
      · refine .inl ?_
        simp only [FetchState.writesAfter, FinMap.get?_erase, if_neg heq]
        exact hk
  | writesClear => exact absurd (hcond k hA) hk
  | _ => exact .inl hk

theorem fetch_sources (h : Sources A listed s) (hl : Backed A listed s l)
    (hpres : Preserves A listed s s') (hex : s.fetch.exec cfg.rdma t c o = some (r, s'.fetch))
    (hdisk : s'.disk = s.disk) (hpre : promisePre l (.fetch o)) (hcond : Permitted A listed s o) :
    Sources A listed s' := by
  apply h.step hpres _ _ (FetchState.exec_slots h.mapped hex)
  · intro k d hsend hA
    cases o with
    | finishLeader key msg =>
        obtain ⟨rfl, hmsg⟩ := hsend
        cases List.mem_singleton.mp hmsg
        exact hpres.secured hA (hl.promised k hpre hA)
    | unknownMount key => cases List.mem_singleton.mp hsend.2
    | _ => exact hsend.elim
  · intro k hk
    rw [hdisk] at hk
    exact hpres.stored k (h.index k hk)
  · intro k hA
    by_contra hne
    obtain ⟨v, hv⟩ := Option.ne_none_iff_exists'.mp hne
    rcases FetchState.lruHas_of_exec hex hv with hold | rfl
    · rw [h.lru k hA] at hold
      cases hold
    · exact hcond hA

/-- A thread may rely on what an operation of the fetcher tells it. -/
theorem fetch_backed (h : Sources A listed s) (hl : Backed A listed s l)
    (hpres : Preserves A listed s s') (hex : s.fetch.exec cfg.rdma t c o = some (r, s'.fetch))
    (hcond : Permitted A listed s o) : Backed A listed s' (l.fetch o r) := by
  have hback := hpres.backed hl
  have hpromise (key : ChunkKey) (hkey : key ∈ A → Secured listed s' key) :
      Backed A listed s' (l.promise key) :=
    hback.promise [key] (List.forall_mem_singleton.mpr hkey)
  obtain ⟨hwrites, -, -⟩ := FetchState.exec_frame hex
  unfold Tally.fetch
  split
  · rename_i key d
    have hget : s.fetch.inflightWrites.get? key = some d :=
      congrArg Prod.fst (Option.some.inj hex)
    apply hpromise
    intro hA
    exact hpres.writes key hA (by simp [hget])
  · rename_i key d
    apply hpromise
    intro hA
    have hhas := FetchState.exec_lruGet hex
    rw [h.lru key hA] at hhas
    cases hhas
  · rename_i key d _
    apply hpromise
    intro _
    refine .inl ?_
    rw [hwrites]
    simp [FetchState.writesAfter]
  · rename_i key d _
    exact hpromise key fun hA => absurd hA hcond
  · rename_i key i
    refine { hback with slots := ?_ }
    intro k j hj
    rcases List.mem_cons.mp hj with heq | hj
    · cases heq
      obtain ⟨slot, hslot, hkey⟩ := h.mapped _ _ (FetchState.exec_follower hex)
      obtain ⟨slot', hslot', hkey'⟩ := hpres.slots _ slot hslot
      exact ⟨slot', hslot', hkey'.trans hkey⟩
    · exact hback.slots k j hj
  · rename_i i timed d
    obtain ⟨slot, hslot, hd⟩ := FetchState.exec_message hex
    apply hback.promise
    intro k hk hA
    obtain ⟨⟨k', j⟩, hmem, hif⟩ := List.mem_filterMap.mp hk
    split at hif
    · rename_i hj
      cases hif
      cases hj
      obtain ⟨slot', hslot', hkey⟩ := hl.slots _ _ hmem
      cases hslot.symm.trans hslot'
      rw [← hkey] at hA ⊢
      exact hpres.secured hA (h.sent _ slot d hslot hd hA)
    · cases hif
  · rename_i key err _
    obtain ⟨hfail, -⟩ := FetchState.exec_failures hex
    apply hback.settle [key]
    rw [List.forall_mem_singleton]
    intro hA
    rcases hcond with hlisted | hnot
    · exact .inr ⟨hlisted, noted_of_record hfail⟩
    · exact absurd hA hnot
  · -- nothing is being written, so what was promised is over
    apply hback.settle
    intro k hk hA
    rcases hl.promised k hk hA with hwriting | hover
    · exact absurd (FetchState.exec_drained hex k) hwriting
    · exact hpres.stillOver hA hover
  · exact hback

theorem fetch_sound (h : Sources A listed s) (hl : Backed A listed s l)
    (hex : s.fetch.exec cfg.rdma t c o = some (r, s'.fetch)) (hdisk : s'.disk = s.disk)
    (hpre : promisePre l (.fetch o)) (hcond : Permitted A listed s o) :
    StepOk A listed s s' (l.fetch o r) := by
  have hpres := fetch_preserves h hl hex hdisk hpre hcond
  exact ⟨hpres, fetch_sources h hl hpres hex hdisk hpre hcond, fetch_backed h hl hpres hex hcond⟩

end Fetch

end Ops

end BlobCache.Hydrate
