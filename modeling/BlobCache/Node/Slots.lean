import BlobCache.Node.Discipline

/-!
The singleflight map under concurrent access. A slot in the map belongs to a
thread that still leads its key and has sent nothing; a slot that has left the
map says who took it out and has sent one message, or none when it was
cleared. Removal is by key, so the thread that closes a slot need not be the
one that created it.
-/

namespace BlobCache.Node

open Cache Conc

variable {cfg : NodeConfig}

/-- The later local state of a thread: it keeps its job and stays dead. -/
structure Loc.Later (l l' : Loc) : Prop where
  job : l'.job = l.job
  dead : l.dead = true → l'.dead = true

/-- How a slot that left the map was closed, by whom and with what message. -/
def SlotClosed (env : Env cfg) (locs : Nat → Option Loc) (slot : Slot) : Prop :=
  match slot.closed with
  | none => False
  | some .cleared => slot.sent = [] ∧ ∃ u l, locs u = some l ∧ l.job = .clearLocalState
  | some (.finished u) =>
      ∃ msg l, slot.sent = [msg] ∧ locs u = some l ∧
        match msg with
        | .ok d => env.good slot.key d
        | .error _ =>
            env.originErr ∨ ∃ n, l.job.expectedLen = some n ∧ env.wrongLen slot.key n
  | some (.cancelled u) =>
      slot.sent = [.error "leader cancelled"] ∧ ∃ l, locs u = some l ∧ l.dead = true
  | some (.unknownMount _) =>
      slot.sent = [.error "unknown mount"] ∧ cfg.mounts.get? slot.key.mount = none

/-- What thread `t` heard on slot `i`, unless its wait ran out. -/
def Heard (f : FetchState) (t : Nat) (k : ChunkKey) (i : Nat) (r : Received) : Prop :=
  ∃ slot, f.slots[i]? = some slot ∧ slot.key = k ∧ t ∈ slot.followers ∧
    (r ≠ .elapsed → f.received i = some r)

structure Slots (env : Env cfg) (f : FetchState) (locs : Nat → Option Loc) : Prop where
  guard : ∀ t, f.guards.get? t = (locs t).bind Loc.lead
  present : ∀ k i, f.inflight.get? k = some i → ∃ slot, f.slots[i]? = some slot ∧
    slot.key = k ∧ slot.closed = none ∧ slot.sent = [] ∧
    ∃ l, locs slot.owner = some l ∧ l.lead = some k
  gone : ∀ i slot, f.slots[i]? = some slot →
    f.inflight.get? slot.key = some i ∨ SlotClosed env locs slot
  waits : ∀ t l k i, locs t = some l → l.rx = some (k, i) →
    ∃ slot, f.slots[i]? = some slot ∧ slot.key = k ∧ t ∈ slot.followers
  heard : ∀ t l k i r, locs t = some l → l.heard = some (k, i, r) → Heard f t k i r

/-- Slots keep their key and their followers, and a closed slot stays as it is. -/
def Grows (f f' : FetchState) : Prop :=
  ∀ (i : Nat) (slot : Slot), f.slots[i]? = some slot → ∃ slot', f'.slots[i]? = some slot' ∧
    slot'.key = slot.key ∧ slot.followers ⊆ slot'.followers ∧
    (slot.closed ≠ none → slot' = slot)

theorem Grows.of_slots_eq {f f' : FetchState} (h : f'.slots = f.slots) : Grows f f' := by
  intro i slot hi
  exact ⟨slot, by rw [h]; exact hi, rfl, fun _ ht => ht, fun _ => rfl⟩

theorem SlotClosed.closed_ne {env : Env cfg} {locs : Nat → Option Loc} {slot : Slot}
    (h : SlotClosed env locs slot) : slot.closed ≠ none := by
  intro hnone
  simp [SlotClosed, hnone] at h

theorem SlotClosed.sent_le {env : Env cfg} {locs : Nat → Option Loc} {slot : Slot}
    (h : SlotClosed env locs slot) :
    slot.sent.length = 1 ∨ slot.sent = [] ∧ slot.closed = some .cleared := by
  unfold SlotClosed at h
  split at h
  · exact h.elim
  · rename_i hclosed
    exact .inr ⟨h.1, hclosed⟩
  · obtain ⟨msg, l, hsent, -⟩ := h
    exact .inl (by simp [hsent])
  · exact .inl (by simp [h.1])
  · exact .inl (by simp [h.1])

/-- A closed slot delivers its message, or that its sender is gone. -/
theorem SlotClosed.received {env : Env cfg} {locs : Nat → Option Loc} {slot : Slot}
    (h : SlotClosed env locs slot) {f : FetchState} {i : Nat} (hi : f.slots[i]? = some slot) :
    ∃ r, f.received i = some r ∧ (∀ msg, slot.sent = [msg] → r = .message msg) ∧
      (slot.sent = [] → r = .closed) := by
  rcases h.sent_le with hone | ⟨hnone, hcleared⟩
  · obtain ⟨msg, hmsg⟩ := List.length_eq_one_iff.mp hone
    refine ⟨.message msg, by simp [FetchState.received, hi, hmsg], ?_, by simp [hmsg]⟩
    intro msg' hmsg'
    rw [hmsg] at hmsg'
    cases hmsg'
    rfl
  · exact ⟨.closed, by simp [FetchState.received, hi, hnone, hcleared], by simp [hnone],
      fun _ => rfl⟩

/-- A thread that moves on does not change why a slot was closed. -/
theorem SlotClosed.update {env : Env cfg} {locs : Nat → Option Loc} {slot : Slot} {t : Nat}
    {l' : Loc} (h : SlotClosed env locs slot) (hl : ∀ l, locs t = some l → l.Later l') :
    SlotClosed env (Function.update locs t (some l')) slot := by
  have hlater (u : Nat) (l : Loc) (hu : locs u = some l) :
      ∃ m, Function.update locs t (some l') u = some m ∧ l.Later m := by
    by_cases hut : u = t
    · subst hut
      exact ⟨l', by simp, hl l hu⟩
    · exact ⟨l, by simpa [hut] using hu, rfl, fun hd => hd⟩
  unfold SlotClosed at h ⊢
  split at h
  · exact h.elim
  · obtain ⟨hsent, u, l, hu, hjob⟩ := h
    obtain ⟨m, hm, hlm⟩ := hlater u l hu
    exact ⟨hsent, u, m, hm, hlm.job.trans hjob⟩
  · rename_i u _
    obtain ⟨msg, l, hsent, hu, hmsg⟩ := h
    obtain ⟨m, hm, hlm⟩ := hlater u l hu
    refine ⟨msg, m, hsent, hm, ?_⟩
    rw [hlm.job]
    exact hmsg
  · rename_i u _
    obtain ⟨hsent, l, hu, hdead⟩ := h
    obtain ⟨m, hm, hlm⟩ := hlater u l hu
    exact ⟨hsent, m, hm, hlm.dead hdead⟩
  · exact h

namespace Slots

variable {env : Env cfg} {f f' : FetchState} {locs : Nat → Option Loc} {t : Nat} {l l' : Loc}

/-- A slot that delivers something has left the map. -/
theorem closed_of_received (h : Slots env f locs) {i : Nat} {slot : Slot} {r : Received}
    (hi : f.slots[i]? = some slot) (hr : f.received i = some r) : slot.closed ≠ none := by
  rcases h.gone i slot hi with hin | hclosed
  · obtain ⟨slot', hi', -, hopen, hsent, -⟩ := h.present _ _ hin
    rw [hi] at hi'
    cases hi'
    simp [FetchState.received, hi, hsent, hopen] at hr
  · exact hclosed.closed_ne

theorem heard_grows (h : Slots env f locs) (hgrow : Grows f f') {k : ChunkKey} {i : Nat}
    {r : Received} (hh : Heard f t k i r) : Heard f' t k i r := by
  obtain ⟨slot, hi, hkey, ht, hr⟩ := hh
  obtain ⟨slot', hi', hkey', hsub, hsame⟩ := hgrow i slot hi
  refine ⟨slot', hi', hkey'.trans hkey, hsub ht, ?_⟩
  intro hne
  have hrec := hr hne
  have heq := hsame (h.closed_of_received hi hrec)
  subst heq
  simpa [FetchState.received, hi, hi'] using hrec

/-- The parts of the invariant about waiting threads, for any step that only
lets slots grow. -/
theorem waits_heard (h : Slots env f locs) (t : Nat) (l' : Loc) (hgrow : Grows f f')
    (hrx : ∀ k i, l'.rx = some (k, i) →
      ∃ slot, f'.slots[i]? = some slot ∧ slot.key = k ∧ t ∈ slot.followers)
    (hheard : ∀ k i r, l'.heard = some (k, i, r) → Heard f' t k i r) :
    (∀ u m k i, Function.update locs t (some l') u = some m → m.rx = some (k, i) →
      ∃ slot, f'.slots[i]? = some slot ∧ slot.key = k ∧ u ∈ slot.followers) ∧
    (∀ u m k i r, Function.update locs t (some l') u = some m → m.heard = some (k, i, r) →
      Heard f' u k i r) := by
  constructor
  · intro u m k i hu hm
    rcases update_eq_some hu with ⟨rfl, rfl⟩ | ⟨-, hu⟩
    · exact hrx k i hm
    · obtain ⟨slot, hi, hkey, hmem⟩ := h.waits u m k i hu hm
      obtain ⟨slot', hi', hkey', hsub, -⟩ := hgrow i slot hi
      exact ⟨slot', hi', hkey'.trans hkey, hsub hmem⟩
  · intro u m k i r hu hm
    rcases update_eq_some hu with ⟨rfl, rfl⟩ | ⟨-, hu⟩
    · exact hheard k i r hm
    · exact h.heard_grows hgrow (h.heard u m k i r hu hm)

/-- A step of a thread that leaves the map and the slots alone. -/
theorem move (h : Slots env f locs) (hguards : f'.guards = f.guards)
    (hinflight : f'.inflight = f.inflight) (hslots : f'.slots = f.slots)
    (ht : locs t = some l) (hl : l.Later l') (hlead : l'.lead = l.lead)
    (hrx : ∀ x, l'.rx = some x → l.rx = some x)
    (hheard : ∀ k i r, l'.heard = some (k, i, r) →
      l.heard = some (k, i, r) ∨ Heard f t k i r) :
    Slots env f' (Function.update locs t (some l')) := by
  have hgrow : Grows f f' := .of_slots_eq hslots
  have hwait := h.waits_heard t l' hgrow
    (fun k i hk => by rw [hslots]; exact h.waits t l k i ht (hrx _ hk))
    (fun k i r hk => h.heard_grows hgrow
      ((hheard k i r hk).elim (h.heard t l k i r ht) id))
  refine ⟨?_, ?_, ?_, hwait.1, hwait.2⟩
  · intro u
    rw [hguards, h.guard u]
    by_cases hut : u = t
    · subst hut
      simp [ht, hlead]
    · simp [hut]
  · intro k i hk
    rw [hinflight] at hk
    obtain ⟨slot, hi, hkey, hopen, hsent, m, hm, hmlead⟩ := h.present k i hk
    refine ⟨slot, by rw [hslots]; exact hi, hkey, hopen, hsent, ?_⟩
    by_cases hut : slot.owner = t
    · rw [hut] at hm ⊢
      rw [ht] at hm
      cases hm
      exact ⟨l', by simp, hlead.trans hmlead⟩
    · exact ⟨m, by simpa [hut] using hm, hmlead⟩
  · intro i slot hi
    rw [hslots] at hi
    rw [hinflight]
    exact (h.gone i slot hi).imp id fun hclosed => hclosed.update fun m hm => by
      rw [ht] at hm
      cases hm
      exact hl

/-- A thread that starts holds nothing. -/
theorem birth (h : Slots env f locs) (ht : locs t = none) (hlead : l'.lead = none)
    (hrx : l'.rx = none) (hheard : l'.heard = none) :
    Slots env f (Function.update locs t (some l')) := by
  have hwait := h.waits_heard t l' (Grows.of_slots_eq (f := f) rfl)
    (fun k i hk => by simp [hrx] at hk) (fun k i r hk => by simp [hheard] at hk)
  refine ⟨?_, ?_, ?_, hwait.1, hwait.2⟩
  · intro u
    rw [h.guard u]
    by_cases hut : u = t
    · subst hut
      simp [ht, hlead]
    · simp [hut]
  · intro k i hk
    obtain ⟨slot, hi, hkey, hopen, hsent, m, hm, hmlead⟩ := h.present k i hk
    have hut : slot.owner ≠ t := by
      rintro hut
      rw [hut, ht] at hm
      cases hm
    exact ⟨slot, hi, hkey, hopen, hsent, m, by simpa [hut] using hm, hmlead⟩
  · intro i slot hi
    exact (h.gone i slot hi).imp id fun hclosed => hclosed.update fun m hm => by
      rw [ht] at hm
      cases hm

theorem closeSlot_grows (h : Slots env f locs) (key : ChunkKey) (msg : List Message)
    (cause : Closing) : Grows f ((f.disarm t).closeSlot key msg cause) := by
  intro i slot hi
  rw [FetchState.closeSlot_slots]
  change ∃ slot', (if f.inflight.get? key = some i then
    f.slots[i]?.map fun slot => { slot with sent := slot.sent ++ msg, closed := some cause }
    else f.slots[i]?) = some slot' ∧ _
  by_cases hin : f.inflight.get? key = some i
  · obtain ⟨slot', hi', -, hopen, -⟩ := h.present _ _ hin
    rw [hi] at hi'
    cases hi'
    simp [hin, hi, hopen]
  · simp [hin, hi]

/-- A leader lets go of its key. Whatever slot is under the key is closed with
its message. -/
theorem release (h : Slots env f locs) (ht : locs t = some l) (l' : Loc) (hl : l.Later l')
    {key : ChunkKey} {msg : Message} {cause : Closing} (hlead : l.lead = some key)
    (hlead' : l'.lead = none) (hrx : ∀ x, l'.rx = some x → l.rx = some x)
    (hheard : l'.heard = l.heard)
    (hclose : ∀ slot : Slot, slot.key = key → SlotClosed env (Function.update locs t (some l'))
      { slot with sent := [msg], closed := some cause }) :
    Slots env ((f.disarm t).closeSlot key [msg] cause) (Function.update locs t (some l')) := by
  have hgrow := h.closeSlot_grows (t := t) key [msg] cause
  have hwait := h.waits_heard t l' hgrow
    (fun k i hk => by
      obtain ⟨slot, hi, hkey, hmem⟩ := h.waits t l k i ht (hrx _ hk)
      obtain ⟨slot', hi', hkey', hsub, -⟩ := hgrow i slot hi
      exact ⟨slot', hi', hkey'.trans hkey, hsub hmem⟩)
    (fun k i r hk => h.heard_grows hgrow (h.heard t l k i r ht (hheard ▸ hk)))
  refine ⟨?_, ?_, ?_, hwait.1, hwait.2⟩
  · intro u
    rw [FetchState.closeSlot_guards]
    change (f.guards.erase t).get? u = _
    rw [FinMap.get?_erase]
    by_cases hut : u = t
    · subst hut
      simp [hlead']
    · simp [hut, h.guard u]
  · intro k i hk
    rw [FetchState.closeSlot_inflight] at hk
    change (if k = key then none else f.inflight.get? k) = some i at hk
    split at hk
    · cases hk
    · rename_i hne
      obtain ⟨slot, hi, hkey, hopen, hsent, m, hm, hmlead⟩ := h.present k i hk
      have hother : f.inflight.get? key ≠ some i := by
        intro hin
        obtain ⟨slot', hi', hkey', -⟩ := h.present _ _ hin
        rw [hi] at hi'
        cases hi'
        exact hne (hkey.symm.trans hkey')
      have hut : slot.owner ≠ t := by
        rintro hut
        rw [hut, ht] at hm
        cases hm
        rw [hlead] at hmlead
        exact hne (Option.some.inj hmlead).symm
      refine ⟨slot, ?_, hkey, hopen, hsent, m, by simpa [hut] using hm, hmlead⟩
      rw [FetchState.closeSlot_slots]
      exact (if_neg hother).trans hi
  · intro i slot hi
    rw [FetchState.closeSlot_slots] at hi
    rw [FetchState.closeSlot_inflight]
    change (if f.inflight.get? key = some i then
      f.slots[i]?.map fun slot => { slot with sent := slot.sent ++ [msg], closed := some cause }
      else f.slots[i]?) = some slot at hi
    change (if slot.key = key then none else f.inflight.get? slot.key) = some i ∨ _
    split at hi
    · rename_i hin
      obtain ⟨slot', hi', hkey', -, hsent', -⟩ := h.present _ _ hin
      rw [hi'] at hi
      simp only [Option.map_some, Option.some.injEq] at hi
      subst hi
      rw [hsent']
      exact .inr (hclose slot' hkey')
    · rename_i hnot
      rcases h.gone i slot hi with hin | hclosed
      · have hne : slot.key ≠ key := by
          intro hk
          exact hnot (hk ▸ hin)
        exact .inl (by simpa [hne] using hin)
      · refine .inr (hclosed.update fun m hm => ?_)
        rw [ht] at hm
        cases hm
        exact hl

/-- A second caller subscribes to the slot that is there. -/
theorem follow (h : Slots env f locs) (ht : locs t = some l) {key : ChunkKey} {i : Nat}
    (hin : f.inflight.get? key = some i) :
    Slots env
      { f with slots := f.slots.modify i fun slot =>
        { slot with followers := t :: slot.followers } }
      (Function.update locs t (some { l with rx := some (key, i) })) := by
  obtain ⟨slot, hi, hkey, hopen, -⟩ := h.present key i hin
  have hget (j : Nat) : (f.slots.modify i fun slot =>
      { slot with followers := t :: slot.followers })[j]? =
      if i = j then f.slots[j]?.map fun slot => { slot with followers := t :: slot.followers }
      else f.slots[j]? := by
    rw [List.getElem?_modify]
    split <;> simp
  have hgrow : Grows f { f with slots := f.slots.modify i fun slot =>
      { slot with followers := t :: slot.followers } } := by
    intro j slot' hj
    simp only [hget]
    by_cases hij : i = j
    · subst hij
      rw [hi] at hj
      cases hj
      simp [hi, hopen]
    · simp [hij, hj]
  have hwait := h.waits_heard t { l with rx := some (key, i) } hgrow
    (fun k j hk => by
      cases hk
      exact ⟨{ slot with followers := t :: slot.followers }, by simp [hget, hi], hkey, by simp⟩)
    (fun k j r hk => h.heard_grows hgrow (h.heard t l k j r ht hk))
  refine ⟨?_, ?_, ?_, hwait.1, hwait.2⟩
  · intro u
    change f.guards.get? u = _
    rw [h.guard u]
    by_cases hut : u = t
    · subst hut
      simp [ht]
    · simp [hut]
  · intro k j hk
    obtain ⟨slot', hj, hkey', hopen', hsent', m, hm, hmlead⟩ := h.present k j hk
    have howner : ∃ m', Function.update locs t (some { l with rx := some (key, i) }) slot'.owner =
        some m' ∧ m'.lead = some k := by
      by_cases hut : slot'.owner = t
      · rw [hut] at hm ⊢
        rw [ht] at hm
        cases hm
        exact ⟨{ l with rx := some (key, i) }, by simp, hmlead⟩
      · exact ⟨m, by simpa [hut] using hm, hmlead⟩
    simp only [hget]
    by_cases hij : i = j
    · exact ⟨{ slot' with followers := t :: slot'.followers }, by simp [hij, hj], hkey', hopen',
        hsent', howner⟩
    · exact ⟨slot', by simp [hij, hj], hkey', hopen', hsent', howner⟩
  · intro j slot' hj
    simp only [hget] at hj
    split at hj
    · rename_i hij
      subst hij
      rw [hi] at hj
      simp only [Option.map_some, Option.some.injEq] at hj
      subst hj
      exact .inl (by rw [hkey]; exact hin)
    · refine (h.gone j slot' hj).imp id fun hclosed => hclosed.update fun m hm => ?_
      rw [ht] at hm
      cases hm
      exact ⟨rfl, fun hd => hd⟩

/-- The first caller creates the slot and leads. -/
theorem become (h : Slots env f locs) (ht : locs t = some l) (hlead : l.lead = none)
    {key : ChunkKey} (hin : f.inflight.get? key = none) :
    Slots env
      { f with
        inflight := f.inflight.insert key f.slots.length
        slots := f.slots ++ [⟨key, t, [], [], none⟩]
        guards := f.guards.insert t key }
      (Function.update locs t
        (some { l with lead := some key, asked := false, stored := none })) := by
  have hold {j : Nat} {slot : Slot} (hj : f.slots[j]? = some slot) :
      (f.slots ++ [⟨key, t, [], [], none⟩])[j]? = some slot := by
    obtain ⟨hlt, -⟩ := List.getElem?_eq_some_iff.mp hj
    rw [List.getElem?_append_left hlt]
    exact hj
  have hgrow : Grows f { f with
      inflight := f.inflight.insert key f.slots.length
      slots := f.slots ++ [⟨key, t, [], [], none⟩]
      guards := f.guards.insert t key } := by
    intro j slot hj
    exact ⟨slot, hold hj, rfl, fun _ hu => hu, fun _ => rfl⟩
  have hwait := h.waits_heard t
    { l with lead := some key, asked := false, stored := none } hgrow
    (fun k j hk => by
      obtain ⟨slot, hj, hkey, hmem⟩ := h.waits t l k j ht hk
      exact ⟨slot, hold hj, hkey, hmem⟩)
    (fun k j r hk => h.heard_grows hgrow (h.heard t l k j r ht hk))
  refine ⟨?_, ?_, ?_, hwait.1, hwait.2⟩
  · intro u
    simp only [FinMap.get?_insert]
    by_cases hut : u = t
    · subst hut
      simp
    · simp [hut, h.guard u]
  · intro k j hk
    simp only [FinMap.get?_insert] at hk
    split at hk
    · rename_i hkk
      cases hk
      exact ⟨⟨key, t, [], [], none⟩, by simp, hkk.symm, rfl, rfl,
        { l with lead := some key, asked := false, stored := none }, by simp, by rw [hkk]⟩
    · obtain ⟨slot, hj, hkey, hopen, hsent, m, hm, hmlead⟩ := h.present k j hk
      have hut : slot.owner ≠ t := by
        intro hut
        rw [hut, ht] at hm
        cases hm
        rw [hlead] at hmlead
        cases hmlead
      exact ⟨slot, hold hj, hkey, hopen, hsent, m, by simpa [hut] using hm, hmlead⟩
  · intro j slot hj
    simp only [FinMap.get?_insert]
    by_cases hlt : j < f.slots.length
    · rw [List.getElem?_append_left hlt] at hj
      rcases h.gone j slot hj with hslot | hclosed
      · have hne : slot.key ≠ key := by
          intro hk
          rw [hk, hin] at hslot
          cases hslot
        exact .inl (by simpa [hne] using hslot)
      · refine .inr (hclosed.update fun m hm => ?_)
        rw [ht] at hm
        cases hm
        exact ⟨rfl, fun hd => hd⟩
    · rw [List.getElem?_append_right (by omega)] at hj
      have hj0 : j - f.slots.length = 0 := by
        obtain ⟨hlen, -⟩ := List.getElem?_eq_some_iff.mp hj
        simp only [List.length_cons, List.length_nil] at hlen
        omega
      rw [hj0] at hj
      simp only [List.getElem?_cons_zero, Option.some.injEq] at hj
      subst hj
      have hjl : f.slots.length = j := by omega
      exact .inl (by simp [hjl])

/-- `inflight.clear()` drops every sender in the map. -/
theorem clear (h : Slots env f locs) (ht : locs t = some l) (hjob : l.job = .clearLocalState) :
    Slots env f.inflightClear (Function.update locs t (some l)) := by
  have hself : Function.update locs t (some l) = locs := Function.update_eq_self_iff.mpr ht.symm
  have hgrow : Grows f f.inflightClear := by
    intro j slot hj
    rw [FetchState.inflightClear_slots]
    by_cases hin : f.inflight.get? slot.key = some j
    · obtain ⟨slot', hj', -, hopen, -⟩ := h.present _ _ hin
      rw [hj] at hj'
      cases hj'
      simp [hj, hin, hopen]
    · simp [hj, hin]
  have hwait := h.waits_heard t l hgrow
    (fun k j hk => by
      obtain ⟨slot, hj, hkey, hmem⟩ := h.waits t l k j ht hk
      obtain ⟨slot', hj', hkey', hsub, -⟩ := hgrow j slot hj
      exact ⟨slot', hj', hkey'.trans hkey, hsub hmem⟩)
    (fun k j r hk => h.heard_grows hgrow (h.heard t l k j r ht hk))
  refine ⟨?_, ?_, ?_, hwait.1, hwait.2⟩
  · intro u
    rw [hself]
    exact h.guard u
  · intro k j hk
    change (∅ : FinMap ChunkKey Nat).get? k = some j at hk
    simp at hk
  · intro j slot hj
    rw [FetchState.inflightClear_slots] at hj
    rw [hself]
    cases hslot : f.slots[j]? with
    | none => simp [hslot] at hj
    | some slot' =>
        simp only [hslot, Option.map_some, Option.some.injEq] at hj
        refine .inr ?_
        split at hj
        · rename_i hin
          obtain ⟨slot'', hj'', -, -, hsent, -⟩ := h.present _ _ hin
          rw [hslot] at hj''
          cases hj''
          subst hj
          exact ⟨hsent, t, l, ht, hjob⟩
        · rename_i hnot
          subst hj
          exact (h.gone j _ hslot).resolve_left hnot

/-- A delivered chunk is a good value for the key of its slot. -/
theorem delivers (h : Slots env f locs) {i : Nat} {slot : Slot} {d : Bytes}
    (hi : f.slots[i]? = some slot) (hr : f.received i = some (.message (.ok d))) :
    env.good slot.key d := by
  have hsent : ∃ rest, slot.sent = .ok d :: rest := by
    simp only [FetchState.received, hi] at hr
    split at hr
    · rename_i msg rest hsent
      cases hr
      exact ⟨rest, hsent⟩
    · split at hr <;> cases hr
  obtain ⟨rest, hsent⟩ := hsent
  rcases h.gone i slot hi with hin | hclosed
  · obtain ⟨slot', hi', -, -, hempty, -⟩ := h.present _ _ hin
    rw [hi] at hi'
    cases hi'
    simp [hsent] at hempty
  · unfold SlotClosed at hclosed
    split at hclosed
    · exact hclosed.elim
    · simp [hsent] at hclosed
    · obtain ⟨msg, m, hmsg, -, hgood⟩ := hclosed
      rw [hsent] at hmsg
      cases hmsg
      exact hgood
    · simp [hsent] at hclosed
    · simp [hsent] at hclosed

/-- A cancelled future drops its guard. -/
theorem cancel (h : Slots env f locs) (ht : locs t = some l) :
    Slots env (f.dropGuard t)
      (Function.update locs t (some { l with dead := true, lead := none, rx := none })) := by
  have hguard := h.guard t
  simp only [ht, Option.bind_some] at hguard
  unfold FetchState.dropGuard
  rw [hguard]
  cases hlead : l.lead with
  | none =>
      exact h.move rfl rfl rfl ht ⟨rfl, fun _ => rfl⟩ hlead.symm (by simp)
        (fun k i r hk => .inl hk)
  | some key =>
      refine h.release ht { l with dead := true, lead := none, rx := none }
        ⟨rfl, fun _ => rfl⟩ hlead rfl (by simp) rfl ?_
      intro slot _
      exact ⟨rfl, { l with dead := true, lead := none, rx := none }, by simp, rfl⟩

/-- Every operation of the fetcher keeps the invariant. -/
theorem exec (h : Slots env f locs) (ht : locs t = some l) {rdma : Bool} {c : FetchChoice}
    {o : FetchOp} {r : o.Resp} (hpre : fetchPre env l o)
    (hex : f.exec rdma t c o = some (r, f')) :
    Slots env f' (Function.update locs t (some (fetchNext l o r))) := by
  have hsame {a : Bool} {st : Option Bytes} (hguards : f'.guards = f.guards)
      (hinflight : f'.inflight = f.inflight) (hslots : f'.slots = f.slots)
      (hnext : fetchNext l o r = { l with asked := a, stored := st }) :
      Slots env f' (Function.update locs t (some (fetchNext l o r))) := by
    rw [hnext]
    exact h.move hguards hinflight hslots ht ⟨rfl, id⟩ rfl (fun _ hx => hx)
      (fun _ _ _ hk => .inl hk)
  cases o with
  | inflightEntry key =>
      simp only [FetchState.exec, FetchState.inflightEntry] at hex
      cases hin : f.inflight.get? key with
      | none =>
          simp only [hin] at hex
          cases hex
          exact h.become ht hpre.1 hin
      | some i =>
          simp only [hin] at hex
          cases hex
          exact h.follow ht hin
  | recv i timed =>
      obtain ⟨⟨key, hrx⟩, -⟩ := hpre
      obtain ⟨slot, hi, hkey, hmem⟩ := h.waits t l key i ht hrx
      have hf : f' = f ∧ (r ≠ .elapsed → f.received i = some r) := by
        simp only [FetchState.exec] at hex
        split at hex
        · cases hex
          exact ⟨rfl, fun hne => absurd rfl hne⟩
        · cases hrec : f.received i with
          | none =>
              rw [hrec] at hex
              cases hex
          | some r' =>
              rw [hrec] at hex
              cases hex
              exact ⟨rfl, fun _ => rfl⟩
      obtain ⟨rfl, hrec⟩ := hf
      refine h.move rfl rfl rfl ht ⟨rfl, id⟩ rfl (by simp [fetchNext]) ?_
      intro k j r' hk
      simp only [fetchNext, hrx, Option.map_some, Option.some.injEq, Prod.mk.injEq] at hk
      obtain ⟨rfl, rfl, rfl⟩ := hk
      exact .inr ⟨slot, hi, hkey, hmem, hrec⟩
  | finishLeader key msg =>
      cases hex
      refine h.release ht { l with lead := none } ⟨rfl, id⟩ hpre.1 rfl
        (fun _ hx => hx) rfl ?_
      intro slot hkey
      refine ⟨msg, { l with lead := none }, rfl, by simp, ?_⟩
      cases msg with
      | ok d => exact hkey ▸ hpre.2.1
      | error e => exact hkey ▸ hpre.2
  | unknownMount key =>
      cases hex
      refine h.release ht { l with lead := none } ⟨rfl, id⟩ hpre.1 rfl
        (fun _ hx => hx) rfl ?_
      intro slot hkey
      exact ⟨rfl, hkey ▸ hpre.2.2⟩
  | inflightClear =>
      cases hex
      exact h.clear ht hpre
  | lruGet key =>
      simp only [FetchState.exec, FetchState.lruGet] at hex
      split at hex <;> cases hex <;> exact hsame rfl rfl rfl rfl
  | waitDrained =>
      simp only [FetchState.exec] at hex
      split at hex <;> cases hex
      exact hsame rfl rfl rfl rfl
  | recordInsertFailure key err =>
      cases hex
      refine hsame ?_ ?_ ?_ rfl <;> unfold FetchState.recordInsertFailure <;> split <;> rfl
  | _ =>
      cases hex
      exact hsame rfl rfl rfl rfl

end Slots

end BlobCache.Node
