import BlobCache.Fetcher.State

/-!
Where chunks can come from inside the fetcher. A slot keeps its key for good and
gets a message only from the one who takes it out of the map; the LRU of peer
chunks gets an entry only when one is put; a failure is recorded only as one.
-/

namespace BlobCache.FetchState

variable {f f' : FetchState}

/-- The map leads to slots of the right keys. -/
def Mapped (f : FetchState) : Prop :=
  ∀ (k : ChunkKey) (i : Nat), f.inflight.get? k = some i →
    ∃ slot : Slot, f.slots[i]? = some slot ∧ slot.key = k

/-- A step after which the slots are where they were, with the messages they
had and those in `sends`. -/
structure SlotStep (f f' : FetchState) (sends : ChunkKey → Message → Prop) : Prop where
  keeps : ∀ (i : Nat) (slot : Slot), f.slots[i]? = some slot →
    ∃ slot' : Slot, f'.slots[i]? = some slot' ∧ slot'.key = slot.key
  source : ∀ (i : Nat) (slot' : Slot) (m : Message), f'.slots[i]? = some slot' →
    m ∈ slot'.sent →
    (∃ slot : Slot, f.slots[i]? = some slot ∧ slot.key = slot'.key ∧ m ∈ slot.sent) ∨
      sends slot'.key m
  mapped : f'.Mapped

namespace SlotStep

variable {sends : ChunkKey → Message → Prop}

theorem of_eq (h : f.Mapped) (hslots : f'.slots = f.slots) (hinflight : f'.inflight = f.inflight) :
    SlotStep f f' sends where
  keeps _ slot hslot := ⟨slot, hslots ▸ hslot, rfl⟩
  source _ slot' _ hslot hm := .inl ⟨slot', hslots ▸ hslot, rfl, hm⟩
  mapped k i hk := hslots ▸ h k i (hinflight ▸ hk)

theorem closeSlot (h : f.Mapped) (key : ChunkKey) (msg : List Message) (cause : Closing) :
    SlotStep f (f.closeSlot key msg cause) fun k m => k = key ∧ m ∈ msg := by
  have hkeeps : ∀ (i : Nat) (slot : Slot), f.slots[i]? = some slot →
      ∃ slot' : Slot, (f.closeSlot key msg cause).slots[i]? = some slot' ∧
        slot'.key = slot.key := by
    intro i slot hslot
    rw [closeSlot_slots, hslot]
    split
    · exact ⟨_, rfl, rfl⟩
    · exact ⟨slot, rfl, rfl⟩
  refine ⟨hkeeps, ?_, ?_⟩
  · intro i slot' m hslot hm
    rw [closeSlot_slots] at hslot
    split at hslot
    · rename_i hi
      obtain ⟨slot, hold, hkey⟩ := h key i hi
      rw [hold] at hslot
      cases hslot
      rcases List.mem_append.mp hm with hm | hm
      · exact .inl ⟨slot, hold, rfl, hm⟩
      · exact .inr ⟨hkey, hm⟩
    · exact .inl ⟨slot', hslot, rfl, hm⟩
  · intro k i hk
    rw [closeSlot_inflight] at hk
    split at hk
    · cases hk
    · obtain ⟨slot, hslot, hkey⟩ := h k i hk
      obtain ⟨slot', hslot', hkey'⟩ := hkeeps i slot hslot
      exact ⟨slot', hslot', hkey'.trans hkey⟩

/-- A leader gives up its slot. -/
theorem release (h : f.Mapped) (t : Nat) (key : ChunkKey) (msg : List Message)
    (cause : Closing) :
    SlotStep f ((f.disarm t).closeSlot key msg cause) fun k m => k = key ∧ m ∈ msg := by
  have hmapped : (f.disarm t).Mapped := h
  have hclose := closeSlot hmapped key msg cause
  exact ⟨hclose.keeps, hclose.source, hclose.mapped⟩

theorem inflightEntry (h : f.Mapped) (t : Nat) (key : ChunkKey) :
    SlotStep f (f.inflightEntry t key).2 sends := by
  unfold FetchState.inflightEntry
  split
  · rename_i j hj
    have hkeeps : ∀ (i : Nat) (slot : Slot), f.slots[i]? = some slot →
        ∃ slot' : Slot, (f.slots.modify j fun slot =>
            { slot with followers := t :: slot.followers })[i]? = some slot' ∧
          slot'.key = slot.key ∧ slot'.sent = slot.sent := by
      intro i slot hslot
      rw [List.getElem?_modify, hslot]
      split
      · exact ⟨_, rfl, rfl, rfl⟩
      · exact ⟨slot, rfl, rfl, rfl⟩
    refine ⟨?_, ?_, ?_⟩
    · intro i slot hslot
      obtain ⟨slot', hslot', hkey, -⟩ := hkeeps i slot hslot
      exact ⟨slot', hslot', hkey⟩
    · intro i slot' m hslot hm
      have hlt : i < f.slots.length := by
        have := (List.getElem?_eq_some_iff.mp hslot).1
        rwa [List.length_modify] at this
      obtain ⟨slot'', hslot'', hkey, hsent⟩ := hkeeps i _ (List.getElem?_eq_getElem hlt)
      cases hslot.symm.trans hslot''
      exact .inl ⟨_, List.getElem?_eq_getElem hlt, hkey.symm, hsent ▸ hm⟩
    · intro k i hk
      obtain ⟨slot, hslot, hkey⟩ := h k i hk
      obtain ⟨slot', hslot', hkey', -⟩ := hkeeps i slot hslot
      exact ⟨slot', hslot', hkey'.trans hkey⟩
  · have hkeeps : ∀ {i : Nat} {slot : Slot}, f.slots[i]? = some slot →
        (f.slots ++ [⟨key, t, [], [], none⟩])[i]? = some slot := by
      intro i slot hslot
      rw [List.getElem?_append_left (List.getElem?_eq_some_iff.mp hslot).1]
      exact hslot
    refine ⟨fun i slot hslot => ⟨slot, hkeeps hslot, rfl⟩, ?_, ?_⟩
    · intro i slot' m hslot hm
      rw [List.getElem?_append] at hslot
      split at hslot
      · exact .inl ⟨slot', hslot, rfl, hm⟩
      · rw [List.mem_singleton.mp (List.mem_of_getElem? hslot)] at hm
        cases hm
    · intro k i hk
      rw [FinMap.get?_insert] at hk
      split at hk
      · rename_i hkey
        cases hk
        exact ⟨_, List.getElem?_concat_length, hkey.symm⟩
      · obtain ⟨slot, hslot, hkey⟩ := h k i hk
        exact ⟨slot, hkeeps hslot, hkey⟩

theorem inflightClear (f : FetchState) : SlotStep f f.inflightClear sends := by
  refine ⟨?_, ?_, ?_⟩
  · intro i slot hslot
    rw [inflightClear_slots, hslot]
    refine ⟨_, rfl, ?_⟩
    dsimp only
    split <;> rfl
  · intro i slot' m hslot hm
    rw [inflightClear_slots] at hslot
    obtain ⟨slot, hold, rfl⟩ := Option.map_eq_some_iff.mp hslot
    refine .inl ⟨slot, hold, ?_⟩
    split
    · rename_i hopen
      rw [if_pos hopen] at hm
      exact ⟨rfl, hm⟩
    · rename_i hopen
      rw [if_neg hopen] at hm
      exact ⟨rfl, hm⟩
  · intro k i hk
    cases hk

end SlotStep

section Exec

variable {rdma : Bool} {t : Nat} {c : FetchChoice} {o : FetchOp} {r : o.Resp}

/-- The messages that an operation sends, by the key of the slot. -/
def sends : FetchOp → ChunkKey → Message → Prop
  | .finishLeader key msg, k, m => k = key ∧ m ∈ [msg]
  | .unknownMount key, k, m => k = key ∧ m ∈ [.error "unknown mount"]
  | _, _, _ => False

theorem exec_slots (h : f.Mapped) (hex : f.exec rdma t c o = some (r, f')) :
    SlotStep f f' (sends o) := by
  have hsame (hmoves : o.movesSlots = false) : SlotStep f f' (sends o) := by
    obtain ⟨-, -, hframe⟩ := exec_frame hex
    obtain ⟨hinflight, hslots⟩ := hframe hmoves
    exact .of_eq h hslots hinflight
  cases o with
  | inflightEntry key =>
      have heq : f' = (f.inflightEntry t key).2 := (congrArg Prod.snd (Option.some.inj hex)).symm
      rw [heq]
      exact .inflightEntry h t key
  | finishLeader key msg =>
      cases hex
      exact .release h t key [msg] (.finished t)
  | unknownMount key =>
      cases hex
      exact .release h t key [.error "unknown mount"] (.unknownMount t)
  | inflightClear =>
      cases hex
      exact .inflightClear f
  | _ => exact hsame rfl

theorem dropGuard_slots (h : f.Mapped) (t : Nat) :
    SlotStep f (f.dropGuard t) fun _ m => m = .error "leader cancelled" := by
  unfold dropGuard
  split
  · exact .of_eq h rfl rfl
  · rename_i key _
    have hclose := SlotStep.release h t key [.error "leader cancelled"] (.cancelled t)
    refine ⟨hclose.keeps, ?_, hclose.mapped⟩
    intro i slot' m hslot hm
    exact (hclose.source i slot' m hslot hm).imp_right fun hsend => List.mem_singleton.mp hsend.2

/-- What the LRU of peer chunks has for a key. -/
def lruHas (f : FetchState) (k : ChunkKey) : Option Bytes := f.peerLru.bind (·.inner.get? k)

@[simp]
theorem closeSlot_peerLru (f : FetchState) (key : ChunkKey) (msg : List Message)
    (cause : Closing) : (f.closeSlot key msg cause).peerLru = f.peerLru := by
  unfold closeSlot
  split <;> rfl

@[simp]
theorem closeSlot_insertFailures (f : FetchState) (key : ChunkKey) (msg : List Message)
    (cause : Closing) : (f.closeSlot key msg cause).insertFailures = f.insertFailures := by
  unfold closeSlot
  split <;> rfl

theorem dropGuard_frame (f : FetchState) (t : Nat) :
    (f.dropGuard t).inflightWrites = f.inflightWrites ∧
      (f.dropGuard t).insertFailures = f.insertFailures ∧
      (f.dropGuard t).peerLru = f.peerLru := by
  unfold dropGuard
  split
  · exact ⟨rfl, rfl, rfl⟩
  · exact ⟨closeSlot_inflightWrites _ _ _ _, closeSlot_insertFailures _ _ _ _,
      closeSlot_peerLru _ _ _ _⟩

/-- The failures that are recorded after an operation. -/
def failuresAfter (f : FetchState) : FetchOp → List (ChunkKey × String)
  | .recordInsertFailure key err => (f.recordInsertFailure key err).insertFailures
  | _ => f.insertFailures

/-- What an operation does to the failures, and that only the operations on the
LRU change it. -/
theorem exec_failures (hex : f.exec rdma t c o = some (r, f')) :
    f'.insertFailures = f.failuresAfter o ∧
      ((∀ k, o ≠ .lruGet k) → (∀ k d, o ≠ .lruPut k d) → o ≠ .lruClear →
        f'.peerLru = f.peerLru) := by
  cases o with
  | waitDrained =>
      simp only [exec] at hex
      split at hex <;> cases hex
      exact ⟨rfl, fun _ _ _ => rfl⟩
  | lruGet key =>
      simp only [exec, lruGet] at hex
      split at hex <;> cases hex <;> exact ⟨rfl, fun hget => absurd rfl (hget key)⟩
  | lruPut key data =>
      cases hex
      exact ⟨rfl, fun _ hput => absurd rfl (hput key data)⟩
  | lruClear =>
      cases hex
      exact ⟨rfl, fun _ _ hclear => absurd rfl hclear⟩
  | inflightEntry key =>
      simp only [exec, inflightEntry] at hex
      split at hex <;> cases hex <;> exact ⟨rfl, fun _ _ _ => rfl⟩
  | recv slot timed =>
      simp only [exec] at hex
      split at hex
      · cases hex
        exact ⟨rfl, fun _ _ _ => rfl⟩
      · obtain ⟨r', -, heq⟩ := Option.map_eq_some_iff.mp hex
        cases heq
        exact ⟨rfl, fun _ _ _ => rfl⟩
  | finishLeader key msg | unknownMount key =>
      cases hex
      exact ⟨closeSlot_insertFailures _ _ _ _, fun _ _ _ => closeSlot_peerLru _ _ _ _⟩
  | recordInsertFailure key err =>
      cases hex
      refine ⟨rfl, fun _ _ _ => ?_⟩
      unfold recordInsertFailure
      split <;> rfl
  | _ =>
      cases hex
      exact ⟨rfl, fun _ _ _ => rfl⟩

/-- An entry of the LRU was there before or has just been put. -/
theorem lruHas_of_exec (hex : f.exec rdma t c o = some (r, f')) {k : ChunkKey} {v : Bytes}
    (h : f'.lruHas k = some v) : f.lruHas k = some v ∨ o = .lruPut k v := by
  obtain ⟨lru', hlru', hv⟩ := Option.bind_eq_some_iff.mp h
  have hold {lru : PeerLru} (hlru : f.peerLru = some lru) (hk : lru.inner.get? k = some v) :
      f.lruHas k = some v := by
    rw [lruHas, hlru]
    exact hk
  cases o with
  | lruGet key =>
      simp only [exec, lruGet] at hex
      split at hex
      · cases hex
        exact .inl h
      · rename_i lru hlru
        cases hex
        cases hlru'
        rw [PeerLru.get_get?] at hv
        exact .inl (hold hlru hv)
  | lruPut key data =>
      cases hex
      obtain ⟨lru, hlru, rfl⟩ := Option.map_eq_some_iff.mp hlru'
      rcases PeerLru.put_get? hv with ⟨rfl, rfl⟩ | hk
      · exact .inr rfl
      · exact .inl (hold hlru hk)
  | lruClear =>
      cases hex
      obtain ⟨lru, -, rfl⟩ := Option.map_eq_some_iff.mp hlru'
      cases hv
  | _ =>
      have hsame : f'.peerLru = f.peerLru :=
        (exec_failures hex).2 (by simp) (by simp) (by simp)
      exact .inl (hold (hsame ▸ hlru') hv)

end Exec

section Responses

variable {rdma : Bool} {t : Nat} {c : FetchChoice}

theorem exec_lruGet {key : ChunkKey} {d : Bytes}
    (hex : f.exec rdma t c (.lruGet key) = some (some d, f')) : f.lruHas key = some d := by
  have hhit : (f.lruGet key).1 = some d := congrArg Prod.fst (Option.some.inj hex)
  unfold lruGet at hhit
  split at hhit
  · cases hhit
  · rename_i lru hlru
    rw [lruHas, hlru]
    exact PeerLru.get_hit hhit

theorem exec_follower {key : ChunkKey} {i : Nat}
    (hex : f.exec rdma t c (.inflightEntry key) = some (.follower i, f')) :
    f.inflight.get? key = some i := by
  have hrole : (f.inflightEntry t key).1 = .follower i :=
    congrArg Prod.fst (Option.some.inj hex)
  unfold inflightEntry at hrole
  split at hrole
  · rename_i j hj
    cases hrole
    exact hj
  · cases hrole

theorem exec_message {i : Nat} {timed : Bool} {m : Message}
    (hex : f.exec rdma t c (.recv i timed) = some (.message m, f')) :
    ∃ slot : Slot, f.slots[i]? = some slot ∧ m ∈ slot.sent := by
  simp only [exec] at hex
  split at hex
  · cases hex
  · obtain ⟨got, hgot, heq⟩ := Option.map_eq_some_iff.mp hex
    cases heq
    unfold received at hgot
    split at hgot
    · cases hgot
    · rename_i slot hslot
      split at hgot
      · rename_i msg rest hsent
        cases hgot
        exact ⟨slot, hslot, hsent ▸ List.mem_cons_self⟩
      · split at hgot <;> cases hgot

theorem exec_drained {r : Unit} (hex : f.exec rdma t c .waitDrained = some (r, f'))
    (k : ChunkKey) : f.inflightWrites.get? k = none := by
  simp only [exec] at hex
  split at hex
  · rename_i hempty
    apply FinMap.not_mem_keys_iff.mp
    rw [List.isEmpty_iff.mp hempty]
    exact List.not_mem_nil
  · cases hex

end Responses

end BlobCache.FetchState
