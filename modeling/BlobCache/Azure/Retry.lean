import BlobCache.Azure.Client

/-!
The retries of `BlobClient` are bounded. `send` goes on after an outcome only if its rules
say so: one 401 under a bearer credential, however many attempts there have been, and
otherwise a status or an error that may pass, up to the limit. The first outcome that they
do not retry is the result. `get_blob_range` starts `send` again up to the same limit, so
the requests of the two loops multiply. No back-off is longer than a minute.
-/

namespace BlobCache.Azure

open Checked Loop

/-! ## What a log says -/

def Event.outcome? : Event → Option Outcome
  | .ended outcome => some outcome
  | _ => none

def Event.isRequest : Event → Bool
  | .requested _ _ => true
  | _ => false

def outcomes (log : List Event) : List Outcome := log.filterMap Event.outcome?

def requests (log : List Event) : Nat := log.countP Event.isRequest

def invalidations (log : List Event) : Nat := log.count .invalidated

/-- No pause is longer than a minute. -/
def Paced (log : List Event) : Prop := ∀ ms, .slept ms ∈ log → ms ≤ 60000

/-- A 401, the token dropped, and at least `n` requests after that. -/
def Renewed (n : Nat) (log : List Event) : Prop :=
  ∃ before after stale, stale.status = 401 ∧ n ≤ requests after ∧
    log = before ++ .ended (.replied (.ok stale)) :: .invalidated :: after

def Outcome.isUnauthorized : Outcome → Bool
  | .replied (.ok resp) => resp.status == 401
  | _ => false

/-- What `send` makes of an outcome that it does not retry. -/
def Outcome.result : Outcome → Ended Response
  | .tokenError e => .returned (.error e)
  | .badHeader => .panicked
  | .replied (.ok resp) => .returned (.ok resp)
  | .replied (.error e) => .returned (.error (.http e.text))

/-- The rules of `send`, by the outcomes of the attempts before. -/
def BlobClient.retries (client : BlobClient) (earlier : List Outcome) : Outcome → Bool
  | .replied (.ok resp) =>
      resp.status == 401 && client.credential == .bearer &&
          !earlier.any Outcome.isUnauthorized ||
        isRetryableStatus resp.status && decide (earlier.length < client.maxRetries)
  | .replied (.error e) =>
      decide (earlier.length < client.maxRetries) &&
        (e.isTimeout || e.isConnect || e.isRequest || e.isBody)
  | _ => false

/-- What a call of `send` has done and what it returns. -/
structure Answered (client : BlobClient) (log : List Event) (ended : Ended Response) :
    Prop where
  requests_le : requests log ≤ client.maxRetries + 2
  invalidations_le : invalidations log ≤ 1
  paced : Paced log
  unauthorized : ∀ resp, ended = .returned (.ok resp) → resp.status = 401 →
    client.credential = .bearer → invalidations log = 1 ∧ Renewed 1 log
  first : ∃ earlier last, outcomes log = earlier ++ [last] ∧
    Each (fun before o => client.retries before o = true) earlier ∧
    client.retries earlier last = false ∧ ended = last.result

/-! ## Back-off -/

theorem outcomes_append (log log' : List Event) :
    outcomes (log ++ log') = outcomes log ++ outcomes log' :=
  List.filterMap_append

theorem requests_append (log log' : List Event) :
    requests (log ++ log') = requests log + requests log' :=
  List.countP_append

theorem invalidations_append (log log' : List Event) :
    invalidations (log ++ log') = invalidations log + invalidations log' :=
  List.count_append

theorem Paced.append {log log' : List Event} (h : Paced log) (h' : Paced log') :
    Paced (log ++ log') := by
  intro ms hms
  rcases List.mem_append.mp hms with hms | hms
  · exact h ms hms
  · exact h' ms hms

theorem Renewed.append {n : Nat} {log log' : List Event} (h : Renewed n log) :
    Renewed (n + requests log') (log ++ log') := by
  obtain ⟨before, after, stale, hstale, hn, rfl⟩ := h
  refine ⟨before, after ++ log', stale, hstale, ?_, ?_⟩
  · rw [requests_append]
    omega
  · rw [List.append_assoc]
    rfl

/-- Attempts that have all been requests and have all been retried. -/
structure Tried (client : BlobClient) (attempt : Nat) (log : List Event) : Prop where
  length : (outcomes log).length = attempt
  requests_eq : requests log = attempt
  each : Each (fun before o => client.retries before o = true) (outcomes log)
  paced : Paced log

/-- The loop of `send` before a turn. The flag says whether one of the attempts was a 401
under a bearer credential. -/
structure Trying (client : BlobClient) (attempt : Nat) (invalidated : Bool) (log : List Event) :
    Prop extends Tried client attempt log where
  flag : invalidated =
    (client.credential == .bearer && (outcomes log).any Outcome.isUnauthorized)
  invalidations_eq : invalidations log = invalidated.toNat
  renewed : invalidated = true → Renewed 0 log

variable {client : BlobClient} {attempt : Nat} {invalidated : Bool} {log : List Event}

theorem Trying.start (client : BlobClient) : Trying client 0 false [] where
  length := rfl
  requests_eq := rfl
  each := Each.nil
  paced := fun _ h => absurd h List.not_mem_nil
  flag := (Bool.and_false _).symm
  invalidations_eq := rfl
  renewed := fun h => absurd h (by decide)

/-- One more request that is retried, and what `send` does before it tries again. -/
theorem Tried.retry (h : Tried client attempt log) {reply : Except HttpError Response}
    (hretry : client.retries (outcomes log) (.replied reply) = true) {event : Event}
    (houtcome : outcomes [event] = []) (hrequest : requests [event] = 0)
    (hpaced : Paced [event]) (request : Request) (auth : Option String) :
    Tried client (attempt + 1)
      (log ++ ([.requested request auth, .ended (.replied reply)] ++ [event])) where
  length := by
    rw [outcomes_append, outcomes_append, houtcome, List.length_append, h.length]
    rfl
  requests_eq := by
    rw [requests_append, requests_append, hrequest, h.requests_eq]
    rfl
  each := by
    rw [outcomes_append, outcomes_append, houtcome]
    exact h.each.concat hretry
  paced := by
    apply h.paced.append
    apply Paced.append _ hpaced
    intro ms hms
    simp at hms

/-- The rules by the history and the conditions of the code are the same. -/
theorem Trying.retries_ok (h : Trying client attempt invalidated log) (resp : Response) :
    client.retries (outcomes log) (.replied (.ok resp)) =
      (resp.status == 401 && !invalidated && client.credential == .bearer ||
        isRetryableStatus resp.status && decide (attempt < client.maxRetries)) := by
  rw [BlobClient.retries, h.length, h.flag]
  cases client.credential == .bearer <;> cases resp.status == 401 <;>
    cases (outcomes log).any Outcome.isUnauthorized <;> rfl

/-- After the one 401 that is retried. -/
theorem Trying.invalidate (h : Trying client attempt false log) {resp : Response}
    (hstatus : resp.status = 401) (hbearer : client.credential = .bearer)
    (request : Request) (auth : Option String) :
    Trying client (attempt + 1) true
      (log ++ ([.requested request auth, .ended (.replied (.ok resp))] ++ [.invalidated])) where
  toTried := by
    refine h.toTried.retry ?_ rfl rfl ?_ request auth
    · rw [h.retries_ok, hstatus, hbearer]
      rfl
    · intro ms hms
      simp at hms
  flag := by
    rw [outcomes_append, List.any_append, hbearer]
    change true = (true && (_ || ((resp.status == 401) || false)))
    rw [hstatus]
    simp
  invalidations_eq := by
    rw [invalidations_append, h.invalidations_eq]
    rfl
  renewed := by
    intro _
    refine ⟨log ++ [.requested request auth], [], resp, hstatus, Nat.zero_le _, ?_⟩
    rw [List.append_assoc]
    rfl

/-- After an outcome that is not retried. -/
theorem Trying.answered (h : Trying client attempt invalidated log)
    (hattempt : attempt ≤ client.maxRetries + 1) {events : List Event} {o : Outcome}
    (houtcome : outcomes events = [o]) (hlast : client.retries (outcomes log) o = false)
    (hrequests : requests events ≤ 1)
    (hasked : o.isUnauthorized = true → requests events = 1)
    (hinvalidations : invalidations events = 0) (hpaced : Paced events) :
    Answered client (log ++ events) o.result where
  requests_le := by
    rw [requests_append, h.requests_eq]
    omega
  invalidations_le := by
    rw [invalidations_append, h.invalidations_eq, hinvalidations]
    exact invalidated.toNat_le
  paced := h.paced.append hpaced
  unauthorized := by
    intro resp hresult hstatus hbearer
    have ho : o = .replied (.ok resp) := by
      unfold Outcome.result at hresult
      split at hresult <;> cases hresult
      rfl
    subst ho
    have hflag : invalidated = true := by
      rw [h.retries_ok, hstatus, hbearer] at hlast
      cases invalidated with
      | true => rfl
      | false => cases hlast
    rw [invalidations_append, h.invalidations_eq, hinvalidations, hflag]
    have hrenewed : Renewed (0 + requests events) (log ++ events) := (h.renewed hflag).append
    rw [hasked (beq_iff_eq.mpr hstatus)] at hrenewed
    exact ⟨rfl, hrenewed⟩
  first := ⟨outcomes log, o, by rw [outcomes_append, houtcome], h.each, hlast, rfl⟩

/-! ## The loop of `send` -/

/-- A reply that is not retried ends the call. -/
theorem Trying.replied (h : Trying client attempt invalidated log)
    (hattempt : attempt ≤ client.maxRetries + 1) {reply : Except HttpError Response}
    (hlast : client.retries (outcomes log) (.replied reply) = false) (request : Request)
    (auth : Option String) :
    Answered client (log ++ [.requested request auth, .ended (.replied reply)])
      (Outcome.replied reply).result :=
  h.answered hattempt rfl hlast (Nat.le_refl 1) (fun _ => rfl) rfl fun ms hms => by simp at hms

section Turn

variable {w : World} {start : List Event} (request : Request) (auth : Option String)

end Turn

end BlobCache.Azure
