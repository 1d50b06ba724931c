import BlobCache.Conc.Run
import BlobCache.Fetcher.State
import Mathlib.Logic.Function.Basic

/-!
The requests of UCX operations. The library hands out a request handle from a pool and takes it
back when it is freed; the memory behind a handle keeps what the operation before left there.
`request_from_status_ptr` clears it, a callback of the library writes the end of the operation
into it, and the future `UcxRequest` reads it from there and frees the handle.

All of this happens on the thread of the runtime, so each call is one step. The state remembers
how operations ended, what their futures returned and who was woken; no step reads that.
-/

namespace BlobCache.Ucx.Requests

open Conc

/-- `UCS_OK` and `UCS_INPROGRESS`; errors are below. -/
def ucsOk : Int := 0

def ucsInProgress : Int := 1

structure RequestState where
  done : Bool
  status : Int
  length : Nat
  waker : Option Nat

structure UcxRequest where
  action : String
  request : Option Nat
  inlined : Option (Except BcError Nat)

/-- Operations are numbered; `users` has the one for which the library has handed out a handle.
A future that was awaited to its end or dropped is gone. -/
structure Pool where
  slots : Nat → RequestState
  users : Nat → Option Nat
  futures : Nat → Option UcxRequest
  submitted : List String
  ended : Nat → Option (Except Int Nat)
  ready : Nat → Option (Except BcError Nat)
  waiting : Nat → Option Nat
  woken : List (Nat × Nat)

/-- The memory of a handle before its first use is anything. -/
def Pool.new (slots : Nat → RequestState) : Pool where
  slots := slots
  users _ := none
  futures _ := none
  submitted := []
  ended _ := none
  ready _ := none
  waiting _ := none
  woken := []

/-- What a call of the library returns: it is done, it has failed, or goes on. -/
inductive StatusPtr where
  | null (length : Nat)
  | err (status : Int)
  | request (handle : Nat)

inductive Step where
  | submit (action : String) (ptr : StatusPtr)
  | complete (handle : Nat) (status : Int) (length : Nat)
  | poll (op : Nat) (waker : Nat)
  | drop (op : Nat)

variable (statusName : Int → String)

def statusError (action : String) (status : Int) : BcError :=
  .peer (action ++ " failed: " ++ statusName status)

/-- What is told of the end of an operation. -/
def told (action : String) : Except Int Nat → Except BcError Nat
  | .ok length => .ok length
  | .error status => .error (statusError statusName action status)

def endOf (status : Int) (length : Nat) : Except Int Nat :=
  if status = ucsOk then .ok length else .error status

namespace Pool

variable (s : Pool)

/-- `request_from_status_ptr`. The library hands out no handle that is in use. -/
def submit (action : String) : StatusPtr → Option Pool
  | .null length => some { s with
      futures := Function.update s.futures s.submitted.length
        (some ⟨action, none, some (.ok length)⟩)
      submitted := s.submitted ++ [action]
      ended := Function.update s.ended s.submitted.length (some (.ok length)) }
  | .err status => some { s with
      futures := Function.update s.futures s.submitted.length
        (some ⟨action, none, some (.error (statusError statusName action status))⟩)
      submitted := s.submitted ++ [action]
      ended := Function.update s.ended s.submitted.length (some (.error status)) }
  | .request handle =>
      if s.users handle = none then some { s with
        slots := Function.update s.slots handle ⟨false, ucsInProgress, 0, none⟩
        users := Function.update s.users handle (some s.submitted.length)
        futures := Function.update s.futures s.submitted.length (some ⟨action, some handle, none⟩)
        submitted := s.submitted ++ [action] }
      else none

/-- `complete_request`, which the library calls once for an operation that goes on. -/
def complete (handle : Nat) (status : Int) (length : Nat) : Option Pool :=
  match s.users handle with
  | none => none
  | some op =>
      if s.ended op = none then some { s with
        slots := Function.update s.slots handle ⟨true, status, length, none⟩
        ended := Function.update s.ended op (some (endOf status length))
        woken := ((s.slots handle).waker.map (op, ·)).toList ++ s.woken }
      else none

/-- The future has returned, and whoever awaits it drops it. -/
def finish (op : Nat) (r : Except BcError Nat) : Pool :=
  { s with
    futures := Function.update s.futures op none
    ready := Function.update s.ready op (some r) }

def poll (op waker : Nat) (f : UcxRequest) : Pool :=
  match f.inlined, f.request with
  | some r, _ => s.finish op r
  | none, none => s.finish op (.error (.peer (f.action ++ " polled after completion")))
  | none, some handle =>
      let state := s.slots handle
      if state.done then
        { s with users := Function.update s.users handle none }.finish op
          (if state.status = ucsOk then .ok state.length
            else .error (statusError statusName f.action state.status))
      else { s with
        slots := Function.update s.slots handle { state with waker := some waker }
        waiting := Function.update s.waiting op (some waker) }

def dropFuture (op : Nat) (f : UcxRequest) : Pool :=
  { s with
    slots := match f.request with
      | some handle => Function.update s.slots handle { s.slots handle with waker := none }
      | none => s.slots
    futures := Function.update s.futures op none }

def step : Step → Option Pool
  | .submit action ptr => s.submit statusName action ptr
  | .complete handle status length => s.complete handle status length
  | .poll op waker => (s.futures op).map (s.poll statusName op waker)
  | .drop op => (s.futures op).map (s.dropFuture op)

end Pool

/-! ## The invariant -/

variable {statusName} {s s' : Pool}

/-- Where the future of an operation is. -/
inductive Waits (statusName : Int → String) (s : Pool) (op : Nat) (f : UcxRequest) : Prop where
  | inlined (e : Except Int Nat) (hended : s.ended op = some e) (hrequest : f.request = none)
      (hvalue : f.inlined = some (told statusName f.action e))
  | pending (handle : Nat) (hinline : f.inlined = none) (hrequest : f.request = some handle)
      (huser : s.users handle = some op) (hended : s.ended op = none)
      (hdone : (s.slots handle).done = false) (hwaker : (s.slots handle).waker = s.waiting op)
  | done (handle : Nat) (hinline : f.inlined = none) (hrequest : f.request = some handle)
      (huser : s.users handle = some op) (hdone : (s.slots handle).done = true)
      (hended : s.ended op = some (endOf (s.slots handle).status (s.slots handle).length))
      (hwoken : ∀ w, s.waiting op = some w → (op, w) ∈ s.woken)

structure Inv (statusName : Int → String) (s : Pool) : Prop where
  future : ∀ op f, s.futures op = some f →
    s.submitted[op]? = some f.action ∧ s.ready op = none ∧ Waits statusName s op f
  ready : ∀ op r, s.ready op = some r →
    ∃ action e, s.submitted[op]? = some action ∧ s.ended op = some e ∧ r = told statusName action e
  user : ∀ handle op, s.users handle = some op → op < s.submitted.length ∧
    (s.futures op = none ∧ s.ready op = none ∨
      ∃ f, s.futures op = some f ∧ f.request = some handle)
  fresh : ∀ op, s.submitted.length ≤ op →
    s.ready op = none ∧ s.waiting op = none ∧ s.ended op = none

/-- An operation is not concerned by what happens to the others. -/
theorem Waits.frame {op : Nat} {f : UcxRequest} (h : Waits statusName s op f)
    (hended : s'.ended op = s.ended op) (hwaiting : s'.waiting op = s.waiting op)
    (hslots : ∀ handle, s.users handle = some op →
      s'.users handle = some op ∧ s'.slots handle = s.slots handle)
    (hwoken : ∀ x ∈ s.woken, x ∈ s'.woken) : Waits statusName s' op f := by
  cases h with
  | inlined e he hrequest hvalue => exact .inlined e (hended.trans he) hrequest hvalue
  | pending handle hinline hrequest huser he hdone hwaker =>
      obtain ⟨huser', hslot⟩ := hslots handle huser
      exact .pending handle hinline hrequest huser' (hended.trans he) (hslot ▸ hdone)
        (by rw [hslot, hwaker, hwaiting])
  | done handle hinline hrequest huser hdone he hall =>
      obtain ⟨huser', hslot⟩ := hslots handle huser
      refine .done handle hinline hrequest huser' (hslot ▸ hdone) ?_ ?_
      · rw [hslot, hended, he]
      · intro w hw
        exact hwoken _ (hall w (hwaiting ▸ hw))

theorem told_endOf (action : String) (status : Int) (length : Nat) :
    told statusName action (endOf status length) =
      if status = ucsOk then .ok length else .error (statusError statusName action status) := by
  unfold endOf
  split <;> rfl

theorem Inv.new (slots : Nat → RequestState) : Inv statusName (.new slots) where
  future _ _ h := by cases h
  ready _ _ h := by cases h
  user _ _ h := by cases h
  fresh _ _ := ⟨rfl, rfl, rfl⟩

namespace Inv

/-- The future returns and, where it has a handle, gives it back. -/
theorem finish (h : Inv statusName s) {op : Nat} {f : UcxRequest} (hf : s.futures op = some f)
    {e : Except Int Nat} (hended : s.ended op = some e) {users : Nat → Option Nat}
    (husers : ∀ handle u, users handle = some u → s.users handle = some u ∧ f.request ≠ some handle)
    (hkept : ∀ handle u, u ≠ op → s.users handle = some u → users handle = some u) :
    Inv statusName ({ s with users := users }.finish op (told statusName f.action e)) := by
  refine ⟨?_, ?_, ?_, ?_⟩
  · intro u g hg
    by_cases hu : u = op
    · subst hu
      simp [Pool.finish] at hg
    · simp only [Pool.finish, Function.update_of_ne hu] at hg ⊢
      obtain ⟨hsubmitted, hready, hwaits⟩ := h.future u g hg
      exact ⟨hsubmitted, hready,
        hwaits.frame rfl rfl (fun handle hh => ⟨hkept handle u hu hh, rfl⟩) fun _ hx => hx⟩
  · intro u r hr
    by_cases hu : u = op
    · subst hu
      simp only [Pool.finish, Function.update_self, Option.some.injEq] at hr
      exact ⟨f.action, e, (h.future u f hf).1, hended, hr.symm⟩
    · simp only [Pool.finish, Function.update_of_ne hu] at hr
      exact h.ready u r hr
  · intro handle u hu
    obtain ⟨huser, hother⟩ := husers handle u hu
    obtain ⟨hlt, huse⟩ := h.user handle u huser
    have hne : u ≠ op := by
      rintro rfl
      rcases huse with ⟨hnone, -⟩ | ⟨g, hg, hrequest⟩
      · rw [hf] at hnone
        cases hnone
      · cases hf.symm.trans hg
        exact hother hrequest
    simp only [Pool.finish, Function.update_of_ne hne]
    exact ⟨hlt, huse⟩
  · intro u hu
    have hne : u ≠ op := by
      rintro rfl
      obtain ⟨hlt, -⟩ := List.getElem?_eq_some_iff.mp (h.future u f hf).1
      exact absurd hlt (by simpa [Pool.finish] using hu)
    simp only [Pool.finish, Function.update_of_ne hne]
    exact h.fresh u hu

/-- The memory of a handle is written for the operation that has the handle. -/
theorem update_slot {handle op u : Nat} (huser : s.users handle = some op) (hu : u ≠ op)
    (state : RequestState) {other : Nat} (hother : s.users other = some u) :
    Function.update s.slots handle state other = s.slots other := by
  apply Function.update_of_ne
  rintro rfl
  exact hu (Option.some.inj (hother.symm.trans huser))

/-- A poll returns the end of the operation and gives its handle back, or waits for it. -/
theorem poll_cases {op : Nat} {f : UcxRequest} (h : Waits statusName s op f) (waker : Nat) :
    (∃ e users, s.ended op = some e ∧
      s.poll statusName op waker f =
        { s with users := users }.finish op (told statusName f.action e) ∧
      (∀ handle u, users handle = some u → s.users handle = some u ∧ f.request ≠ some handle) ∧
      ∀ handle u, u ≠ op → s.users handle = some u → users handle = some u) ∨
    ∃ handle, f.inlined = none ∧ f.request = some handle ∧ s.users handle = some op ∧
      s.ended op = none ∧ (s.slots handle).done = false ∧
      s.poll statusName op waker f = { s with
        slots := Function.update s.slots handle { s.slots handle with waker := some waker }
        waiting := Function.update s.waiting op (some waker) } := by
  unfold Pool.poll
  cases h with
  | inlined e hended hrequest hvalue =>
      refine .inl ⟨e, s.users, hended, by rw [hvalue], fun handle u hu => ⟨hu, ?_⟩,
        fun _ _ _ hu => hu⟩
      rw [hrequest]
      exact nofun
  | pending handle hinline hrequest huser hended hdone hwaker =>
      refine .inr ⟨handle, hinline, hrequest, huser, hended, hdone, ?_⟩
      simp [hinline, hrequest, hdone]
  | done handle hinline hrequest huser hdone hended hwoken =>
      refine .inl ⟨_, Function.update s.users handle none, hended, ?_, ?_, ?_⟩
      · simp only [hinline, hrequest, hdone, if_true, told_endOf]
      · intro other u hu
        by_cases hsame : other = handle
        · subst hsame
          simp at hu
        · rw [Function.update_of_ne hsame] at hu
          refine ⟨hu, ?_⟩
          rw [hrequest]
          exact fun heq => hsame (Option.some.inj heq).symm
      · intro other u hu hother
        rw [Function.update_of_ne, hother]
        rintro rfl
        exact hu (Option.some.inj (hother.symm.trans huser))

theorem poll (h : Inv statusName s) {op : Nat} {f : UcxRequest} (hf : s.futures op = some f)
    (waker : Nat) : Inv statusName (s.poll statusName op waker f) := by
  obtain ⟨hsubmitted, hready, hwaits⟩ := h.future op f hf
  rcases poll_cases hwaits waker with ⟨e, users, hended, heq, husers, hkept⟩ |
    ⟨handle, hinline, hrequest, huser, hended, hdone, heq⟩
  · rw [heq]
    exact h.finish hf hended husers hkept
  · rw [heq]
    refine ⟨?_, h.ready, h.user, ?_⟩
    · intro u g hg
      by_cases hu : u = op
      · subst hu
        cases hf.symm.trans hg
        exact ⟨hsubmitted, hready, .pending handle hinline hrequest huser hended
          (by simp [hdone]) (by simp)⟩
      · obtain ⟨hsubmitted', hready', hwaits'⟩ := h.future u g hg
        exact ⟨hsubmitted', hready', hwaits'.frame rfl (Function.update_of_ne hu ..)
          (fun other hother => ⟨hother, update_slot huser hu _ hother⟩) fun _ hx => hx⟩
    · intro u hu
      have hlt := (List.getElem?_eq_some_iff.mp hsubmitted).1
      obtain ⟨hr, hw, he⟩ := h.fresh u hu
      exact ⟨hr, (Function.update_of_ne (hlt.trans_le hu).ne' ..).trans hw, he⟩

theorem dropFuture (h : Inv statusName s) {op : Nat} {f : UcxRequest}
    (hf : s.futures op = some f) : Inv statusName (s.dropFuture op f) := by
  obtain ⟨hsubmitted, hready, hwaits⟩ := h.future op f hf
  refine ⟨?_, h.ready, ?_, h.fresh⟩
  · intro u g hg
    by_cases hu : u = op
    · subst hu
      simp [Pool.dropFuture] at hg
    · simp only [Pool.dropFuture, Function.update_of_ne hu] at hg ⊢
      obtain ⟨hsubmitted', hready', hwaits'⟩ := h.future u g hg
      refine ⟨hsubmitted', hready', hwaits'.frame rfl rfl (fun other hother => ⟨hother, ?_⟩)
        fun _ hx => hx⟩
      cases hwaits with
      | inlined e hended hrequest hvalue => rw [hrequest]
      | pending handle hinline hrequest huser hended hdone hwaker
      | done handle hinline hrequest huser hdone hended hwoken =>
          rw [hrequest]
          exact update_slot huser hu _ hother
  · intro handle u huser
    obtain ⟨hlt, huse⟩ := h.user handle u huser
    refine ⟨hlt, ?_⟩
    by_cases hu : u = op
    · subst hu
      exact .inl ⟨Function.update_self .., hready⟩
    · simp only [Pool.dropFuture, Function.update_of_ne hu]
      exact huse

theorem complete (h : Inv statusName s) {handle : Nat} {status : Int} {length : Nat}
    (hs : s.complete handle status length = some s') : Inv statusName s' := by
  unfold Pool.complete at hs
  split at hs
  · cases hs
  · rename_i op huser
    split at hs
    · rename_i hopen
      cases hs
      refine ⟨?_, ?_, h.user, ?_⟩
      · intro u g hg
        obtain ⟨hsubmitted, hready, hwaits⟩ := h.future u g hg
        refine ⟨hsubmitted, hready, ?_⟩
        by_cases hu : u = op
        · subst hu
          cases hwaits with
          | inlined e hended _ _ | done _ _ _ _ _ hended _ =>
              rw [hopen] at hended
              cases hended
          | pending own hinline hrequest huser' hended hdone hwaker =>
              obtain rfl : own = handle := by
                rcases (h.user handle u huser).2 with ⟨hnone, -⟩ | ⟨g', hg', hrequest'⟩
                · rw [hg] at hnone
                  cases hnone
                · cases hg.symm.trans hg'
                  exact Option.some.inj (hrequest.symm.trans hrequest')
              refine .done own hinline hrequest huser (by simp) (by simp) ?_
              intro w hw
              rw [hwaker, show s.waiting u = some w from hw]
              exact List.mem_cons_self
        · exact hwaits.frame (Function.update_of_ne hu ..) rfl
            (fun other hother => ⟨hother, update_slot huser hu _ hother⟩)
            fun _ hx => List.mem_append_right _ hx
      · intro u r hr
        obtain ⟨action, e, hsubmitted, hended, rfl⟩ := h.ready u r hr
        have hu : u ≠ op := by
          rintro rfl
          rw [hopen] at hended
          cases hended
        exact ⟨action, e, hsubmitted, (Function.update_of_ne hu ..).trans hended, rfl⟩
      · intro u hu
        have hlt := (h.user handle op huser).1
        obtain ⟨hr, hw, he⟩ := h.fresh u hu
        exact ⟨hr, hw, (Function.update_of_ne (hlt.trans_le hu).ne' ..).trans he⟩
    · cases hs

/-- A new operation leaves the others as they are. -/
theorem add (h : Inv statusName s) {f : UcxRequest}
    (hfutures : s'.futures = Function.update s.futures s.submitted.length (some f))
    (hsubmitted : s'.submitted = s.submitted ++ [f.action]) (hready : s'.ready = s.ready)
    (hwaiting : s'.waiting = s.waiting) (hwoken : s'.woken = s.woken)
    (hended : ∀ op, op ≠ s.submitted.length → s'.ended op = s.ended op)
    (hslots : ∀ handle op, s.users handle = some op →
      s'.users handle = some op ∧ s'.slots handle = s.slots handle)
    (husers : ∀ handle op, s'.users handle = some op →
      s.users handle = some op ∨ op = s.submitted.length ∧ f.request = some handle)
    (hself : Waits statusName s' s.submitted.length f) : Inv statusName s' := by
  have hlast : s'.submitted[s.submitted.length]? = some f.action := by
    rw [hsubmitted, List.getElem?_concat_length]
  have hold {u : Nat} {a : String} (hu : s.submitted[u]? = some a) :
      u ≠ s.submitted.length ∧ s'.submitted[u]? = some a := by
    have hlt := (List.getElem?_eq_some_iff.mp hu).1
    rw [hsubmitted, List.getElem?_append_left hlt]
    exact ⟨hlt.ne, hu⟩
  refine ⟨?_, ?_, ?_, ?_⟩
  · intro u g hg
    rw [hready]
    by_cases hu : u = s.submitted.length
    · subst hu
      rw [hfutures, Function.update_self] at hg
      cases hg
      exact ⟨hlast, (h.fresh _ le_rfl).1, hself⟩
    · rw [hfutures, Function.update_of_ne hu] at hg
      obtain ⟨ha, hr, hwaits⟩ := h.future u g hg
      exact ⟨(hold ha).2, hr, hwaits.frame (hended u hu) (by rw [hwaiting])
        (fun handle => hslots handle u) fun _ hx => hwoken ▸ hx⟩
  · intro u r hr
    rw [hready] at hr
    obtain ⟨action, e, ha, he, htold⟩ := h.ready u r hr
    exact ⟨action, e, (hold ha).2, (hended u (hold ha).1).trans he, htold⟩
  · intro handle u hu
    rw [hfutures, hready, hsubmitted, List.length_append, List.length_singleton]
    rcases husers handle u hu with huser | ⟨rfl, hrequest⟩
    · obtain ⟨hlt, huse⟩ := h.user handle u huser
      rw [Function.update_of_ne hlt.ne]
      exact ⟨by omega, huse⟩
    · exact ⟨by omega, .inr ⟨f, Function.update_self .., hrequest⟩⟩
  · intro u hu
    rw [hsubmitted, List.length_append, List.length_singleton] at hu
    rw [hready, hwaiting, hended u (by omega)]
    exact h.fresh u (by omega)

theorem submit (h : Inv statusName s) {action : String} {ptr : StatusPtr}
    (hs : s.submit statusName action ptr = some s') : Inv statusName s' := by
  cases ptr with
  | null length =>
      cases hs
      exact h.add rfl rfl rfl rfl rfl (fun _ hop => Function.update_of_ne hop ..)
        (fun _ _ hu => ⟨hu, rfl⟩) (fun _ _ hu => .inl hu)
        (.inlined (.ok length) (Function.update_self ..) rfl rfl)
  | err status =>
      cases hs
      exact h.add rfl rfl rfl rfl rfl (fun _ hop => Function.update_of_ne hop ..)
        (fun _ _ hu => ⟨hu, rfl⟩) (fun _ _ hu => .inl hu)
        (.inlined (.error status) (Function.update_self ..) rfl rfl)
  | request handle =>
      simp only [Pool.submit] at hs
      split at hs
      · rename_i hfree
        cases hs
        have hne {other op : Nat} (hother : s.users other = some op) : other ≠ handle := by
          rintro rfl
          rw [hfree] at hother
          cases hother
        refine h.add rfl rfl rfl rfl rfl (fun _ _ => rfl) ?_ ?_ ?_
        · intro other op hother
          exact ⟨(Function.update_of_ne (hne hother) ..).trans hother,
            Function.update_of_ne (hne hother) ..⟩
        · intro other op hother
          by_cases hsame : other = handle
          · subst hsame
            simp only [Function.update_self, Option.some.injEq] at hother
            exact .inr ⟨hother.symm, rfl⟩
          · simp only [Function.update_of_ne hsame] at hother
            exact .inl hother
        · obtain ⟨-, hwaiting, hended⟩ := h.fresh _ le_rfl
          exact .pending handle rfl rfl (Function.update_self ..) hended (by simp)
            (by simp [hwaiting])
      · cases hs

theorem step (h : Inv statusName s) {l : Step} (hs : s.step statusName l = some s') :
    Inv statusName s' := by
  cases l with
  | submit action ptr => exact h.submit hs
  | complete handle status length => exact h.complete hs
  | poll op waker =>
      obtain ⟨f, hf, rfl⟩ := Option.map_eq_some_iff.mp hs
      exact h.poll hf waker
  | drop op =>
      obtain ⟨f, hf, rfl⟩ := Option.map_eq_some_iff.mp hs
      exact h.dropFuture hf

/-- Once its operation has ended, a future returns that end when it is polled. -/
theorem ready_of_poll (h : Inv statusName s) {op : Nat} {f : UcxRequest} {e : Except Int Nat}
    (hf : s.futures op = some f) (he : s.ended op = some e) (waker : Nat) :
    (s.poll statusName op waker f).ready op = some (told statusName f.action e) := by
  rcases poll_cases (h.future op f hf).2.2 waker with ⟨e', users, hended, heq, -⟩ |
    ⟨_, _, _, _, hended, _⟩
  · cases he.symm.trans hended
    rw [heq]
    exact Function.update_self ..
  · rw [he] at hended
    cases hended

/-- A poll gives back no handle but that of its operation, after that has ended. -/
theorem users_of_poll (h : Inv statusName s) {op : Nat} {f : UcxRequest}
    (hf : s.futures op = some f) (waker : Nat) {handle u : Nat} (hu : s.users handle = some u) :
    (s.poll statusName op waker f).users handle = some u ∨ ∃ e, s.ended u = some e := by
  rcases poll_cases (h.future op f hf).2.2 waker with ⟨e, users, hended, heq, -, hkept⟩ |
    ⟨_, _, _, _, _, _, heq⟩
  · by_cases hsame : u = op
    · exact .inr ⟨e, hsame ▸ hended⟩
    · rw [heq]
      exact .inl (hkept handle u hsame hu)
  · rw [heq]
    exact .inl hu

theorem users_of_step (h : Inv statusName s) {l : Step} (hs : s.step statusName l = some s')
    {handle op : Nat} (hu : s.users handle = some op) :
    s'.users handle = some op ∨ ∃ e, s.ended op = some e := by
  cases l with
  | submit action ptr =>
      cases ptr with
      | null length | err status =>
          cases hs
          exact .inl hu
      | request other =>
          simp only [Pool.step, Pool.submit] at hs
          split at hs
          · rename_i hfree
            cases hs
            have hne : handle ≠ other := by
              rintro rfl
              rw [hfree] at hu
              cases hu
            exact .inl ((Function.update_of_ne hne ..).trans hu)
          · cases hs
  | complete other status length =>
      simp only [Pool.step, Pool.complete] at hs
      split at hs
      · cases hs
      · split at hs
        · cases hs
          exact .inl hu
        · cases hs
  | poll other waker =>
      obtain ⟨f, hf, rfl⟩ := Option.map_eq_some_iff.mp hs
      exact h.users_of_poll hf waker hu
  | drop other =>
      obtain ⟨f, hf, rfl⟩ := Option.map_eq_some_iff.mp hs
      exact .inl hu

end Inv

/-- However submissions, callbacks, polls and drops follow each other, and whatever the memory of
recycled handles holds: a future returns the end of its own operation and nothing else; a live
future has its handle to itself, and no step gives back a handle before its operation has ended;
whoever polled last is woken when the operation ends, and the next poll returns that end. -/
theorem future_returns_own_end {slots : Nat → RequestState} {G : Pool → Step → Prop}
    (hrun : Run (Pool.step statusName) G (.new slots) s) :
    (∀ op r, s.ready op = some r → ∃ action e, s.submitted[op]? = some action ∧
        s.ended op = some e ∧ r = told statusName action e) ∧
      (∀ op f handle, s.futures op = some f → f.request = some handle →
        s.users handle = some op) ∧
      (∀ l s' handle op, s.step statusName l = some s' → s.users handle = some op →
        s'.users handle = some op ∨ ∃ e, s.ended op = some e) ∧
      ∀ op f e, s.futures op = some f → s.ended op = some e →
        (∀ w, f.request ≠ none → s.waiting op = some w → (op, w) ∈ s.woken) ∧
        ∀ w, (s.poll statusName op w f).ready op = some (told statusName f.action e) := by
  have h : Inv statusName s := hrun.inv (fun _ _ _ h _ hs => h.step hs) (.new slots)
  refine ⟨h.ready, ?_, fun _ _ _ _ hs hu => h.users_of_step hs hu, ?_⟩
  · intro op f handle hf hrequest
    cases (h.future op f hf).2.2 with
    | inlined e hended hnone hvalue =>
        rw [hrequest] at hnone
        cases hnone
    | pending own hinline hown huser hended hdone hwaker
    | done own hinline hown huser hdone hended hwoken =>
        cases hrequest.symm.trans hown
        exact huser
  · intro op f e hf he
    refine ⟨?_, h.ready_of_poll hf he⟩
    intro w hrequest hw
    cases (h.future op f hf).2.2 with
    | inlined e hended hnone hvalue => exact absurd hnone hrequest
    | pending own hinline hown huser hended hdone hwaker =>
        rw [he] at hended
        cases hended
    | done own hinline hown huser hdone hended hwoken => exact hwoken w hw

/-- The second receive is given the handle of the first. -/
def sampleSteps : List Step :=
  [.submit "recv" (.request 0), .poll 0 7, .complete 0 ucsOk 64, .poll 0 7,
    .submit "recv" (.request 0), .poll 1 8, .complete 0 (-3) 0, .poll 1 8]

theorem future_returns_own_end_of_recycled :
    ∃ s, Run (Pool.step fun _ => "refused") (fun _ _ => True) (.new fun _ => ⟨true, 0, 9, none⟩) s ∧
      s.ready 0 = some (.ok 64) ∧
      ∃ action e, s.submitted[1]? = some action ∧ s.ended 1 = some e ∧
        .error (.peer "recv failed: refused") = told (fun _ => "refused") action e := by
  obtain ⟨s, hrun, hs⟩ := run_of_labels (Pool.step fun _ => "refused")
    (.new fun _ => ⟨true, 0, 9, none⟩) sampleSteps
    (fun s => decide (s.ready 0 = some (.ok 64)) &&
      decide (s.ready 1 = some (.error (.peer "recv failed: refused")))) (by decide +kernel)
  simp only [Bool.and_eq_true, decide_eq_true_eq] at hs
  obtain ⟨hready, -⟩ := future_returns_own_end hrun
  exact ⟨s, hrun, hs.1, hready 1 _ hs.2⟩

end BlobCache.Ucx.Requests
