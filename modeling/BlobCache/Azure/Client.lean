import BlobCache.Azure.BlobUrl
import BlobCache.Data.Loop

/-!
`BlobClient`: how requests are sent and retried. `send` resolves a bearer token for every
attempt, retries some statuses and some network errors, and after a 401 under a bearer
credential drops the cached token and tries again. `get_blob_range` retries on top of
that when a body cannot be read.

What comes from outside is given for each attempt: the clock, the token endpoint, what
other tasks have made of the shared token, and the reply. A call keeps a log of what it
has done. Left out are the metrics, the headers besides `Authorization` and the text that
a SAS credential adds to the URL; a body or a content type is sent by no caller.
-/

namespace BlobCache.Azure

open Checked Loop Percent

/-! ## Bearer tokens -/

/-- `REFRESH_SKEW_SECS`. -/
def refreshSkewSecs : Nat := 300

/-- The cached token with the second in which it expires. -/
structure BearerSource where
  cached : Option (String × Nat)
  deriving DecidableEq

/-- How a refresh on the blocking pool ends. -/
inductive Refresh where
  | lost (msg : String)
  | failed (e : BcError)
  | unavailable
  | issued (token : String) (expiresAt : Nat)

/-- What a call of `token` meets: the time, what others do to the cached token while it
waits for the refresh lock, and the endpoint. -/
structure TokenEnv where
  now : Nat
  whileWaiting : BearerSource → BearerSource
  refresh : Refresh

namespace BearerSource

/-- The cached token if it is well within its validity. -/
def valid? (src : BearerSource) (now : Nat) : Option String :=
  match src.cached with
  | some (token, expiresAt) => if now + refreshSkewSecs < expiresAt then some token else none
  | none => none

def token (env : TokenEnv) (src : BearerSource) : Except BcError String × BearerSource :=
  match src.valid? env.now with
  | some token => (.ok token, src)
  | none =>
      let src := env.whileWaiting src
      -- another task may have refreshed in the meantime
      match src.valid? env.now with
      | some token => (.ok token, src)
      | none =>
          match env.refresh with
          | .lost msg => (.error (.auth s!"token refresh join: {msg}"), src)
          | .failed e => (.error e, src)
          | .unavailable => (.error (.auth "token source no longer available"), src)
          | .issued token expiresAt => (.ok token, ⟨some (token, expiresAt)⟩)

def invalidate (_src : BearerSource) : BearerSource := ⟨none⟩

end BearerSource

inductive Credential where
  | sharedKey (account key : String)
  | sas (token : String)
  | bearer
  | anonymous
  deriving DecidableEq

/-! ## Replies -/

/-- An error of the HTTP library with what it says about itself. -/
structure HttpError where
  isTimeout : Bool
  isConnect : Bool
  isRequest : Bool
  isBody : Bool
  isDecode : Bool
  text : String
  deriving DecidableEq

structure Response where
  status : Nat
  retryAfter : Option Bytes
  text : Except HttpError String
  body : Except HttpError Bytes
  deriving DecidableEq

def Response.isSuccess (resp : Response) : Bool := 200 ≤ resp.status && resp.status < 300

def isRetryableStatus (status : Nat) : Bool :=
  status == 429 || status == 500 || status == 502 || status == 503 || status == 504

/-- What is outside of one attempt. `others` is what other tasks have made of the token
since the last attempt, `signature` is that of `sign_request`, which panics on a key that
is not in base 64, and the two clocks are those of the back-offs after it. -/
structure Attempt where
  others : BearerSource → BearerSource
  token : TokenEnv
  signature : Option String
  reply : Except HttpError Response
  nanos : Nat
  bodyNanos : Nat

/-- What an attempt comes to: no token, a header that cannot be built, or a reply. -/
inductive Outcome where
  | tokenError (e : BcError)
  | badHeader
  | replied (reply : Except HttpError Response)
  deriving DecidableEq

inductive Event where
  | requested (request : Request) (authorization : Option String)
  | ended (outcome : Outcome)
  | invalidated
  | slept (ms : Nat)
  deriving DecidableEq

/-- A call returns, or panics on a value that it unwraps. -/
inductive Ended (α : Type) where
  | returned (result : Except BcError α)
  | panicked
  deriving DecidableEq

/-- The shared token, the number of attempts so far and what has been done. -/
structure World where
  source : BearerSource
  attempts : Nat
  log : List Event
  deriving DecidableEq

def World.add (w : World) (events : List Event) : World := { w with log := w.log ++ events }

/-! ## Back-off -/

def saturatingMul (a b : Nat) : Nat := min (a * b) u64Max

def backoffMs (attempt nanos : Nat) : Except Fault Nat := do
  let base := 500
  let cap := 30000
  let exponent ← sub attempt 1
  let factor ← shl 1 (min exponent 10)
  let exp := saturatingMul base factor
  let capped := min exp cap
  let jitterRange ← div capped 4
  let twice ← mul jitterRange 2
  let modulus ← add twice 1
  let jitter ← rem nanos modulus
  return saturatingAdd (capped - jitterRange) jitter

/-- `HeaderValue::to_str`. -/
def toStr? (value : Bytes) : Option String :=
  if value.all fun x => (32 ≤ x && x < 127) || x == 9 then ofUtf8? value else none

def retryDelayMs (resp : Response) (attempt nanos : Nat) : Except Fault Nat :=
  match (resp.retryAfter.bind toStr?).bind (parseUnsigned (2 ^ 64)) with
  | some secs => return min (saturatingMul secs 1000) 60000
  | none => backoffMs attempt nanos

/-! ## The loops -/

structure BlobClient where
  credential : Credential
  maxRetries : Nat

namespace BlobClient

def new (credential : Credential) : BlobClient := ⟨credential, 10⟩

variable (client : BlobClient) (env : Nat → Attempt)

def maxAttempts : Nat := max (min (client.maxRetries + 1) u32Max) 1

/-- The token of an attempt, if the credential is one. -/
def bearerOf (a : Attempt) (src : BearerSource) :
    Except BcError (Option String) × BearerSource :=
  match client.credential with
  | .bearer =>
      let (token, src) := src.token a.token
      (token.map some, src)
  | _ => (.ok none, src)

/-- `HeaderValue::from_str`. -/
def headerValue? (text : String) : Option String :=
  if (utf8 text).all fun x => (32 ≤ x && x != 127) || x == 9 then some text else none

/-- The `Authorization` header of `build_headers`, or nothing if one of the values that it
unwraps is missing. It returns no error. -/
def buildHeaders (a : Attempt) (bearer : Option String) : Option (Option String) :=
  match client.credential with
  | .sharedKey account _ => do
      let signature ← a.signature
      some <$> headerValue? s!"SharedKey {account}:{signature}"
  | .bearer =>
      match bearer with
      | some token => some <$> headerValue? s!"Bearer {token}"
      | none => some none
  | .sas _ | .anonymous => some none

structure Sending where
  attempt : Nat
  bearerInvalidatedOnce : Bool
  world : World

/-- One turn of the loop of `send`. -/
def sendTurn (request : Request) (s : Sending) :
    Except Fault (Turn Sending (Ended Response × World)) := do
  let attempt ← addU32 s.attempt 1
  let a := env s.world.attempts
  let (bearer, source) := client.bearerOf a (a.others s.world.source)
  let w := { s.world with source := source, attempts := s.world.attempts + 1 }
  match bearer with
  | .error e => return .done (.returned (.error e), w.add [.ended (.tokenError e)])
  | .ok bearer =>
      match client.buildHeaders a bearer with
      | none => return .done (.panicked, w.add [.ended .badHeader])
      | some authorization =>
        let w := w.add [.requested request authorization, .ended (.replied a.reply)]
        match a.reply with
        | .ok resp =>
            -- the cached token may be stale: force one refresh and retry once
            if resp.status == 401 && !s.bearerInvalidatedOnce && client.credential == .bearer then
              let w := { w with source := w.source.invalidate }
              return .again ⟨attempt, true, w.add [.invalidated]⟩
            else if isRetryableStatus resp.status && attempt < client.maxAttempts then
              let delay ← retryDelayMs resp attempt a.nanos
              return .again ⟨attempt, s.bearerInvalidatedOnce, w.add [.slept delay]⟩
            else return .done (.returned (.ok resp), w)
        | .error e =>
            if attempt < client.maxAttempts &&
                (e.isTimeout || e.isConnect || e.isRequest || e.isBody) then
              let delay ← backoffMs attempt a.nanos
              return .again ⟨attempt, s.bearerInvalidatedOnce, w.add [.slept delay]⟩
            else return .done (.returned (.error (.http e.text)), w)

def send (turns : Nat) (request : Request) (w : World) :
    Except Fault (Ended Response × World) :=
  run (client.sendTurn env request) turns ⟨0, false, w⟩

structure Reading where
  attempt : Nat
  world : World

/-- One turn of the loop of `get_blob_range`. -/
def rangeTurn (turns : Nat) (request : Request) (s : Reading) :
    Except Fault (Turn Reading (Ended Bytes × World)) := do
  let attempt ← addU32 s.attempt 1
  let (sent, w) ← client.send env turns request s.world
  match sent with
  | .panicked => return .done (.panicked, w)
  | .returned (.error e) => return .done (.returned (.error e), w)
  | .returned (.ok resp) =>
      if !resp.isSuccess then
        let body := resp.text.toOption.getD ""
        let message := String.ofList (body.toList.take 200)
        return .done (.returned (.error (.storage resp.status message)), w)
      else
        match resp.body with
        | .ok b => return .done (.returned (.ok b), w)
        | .error e =>
            if attempt < client.maxAttempts && (e.isBody || e.isTimeout || e.isDecode) then
              let delay ← backoffMs attempt (env w.attempts).bodyNanos
              return .again ⟨attempt, w.add [.slept delay]⟩
            else return .done (.returned (.error (.http e.text)), w)

def getBlobRange (parseAuthority : Bytes → Option Bytes) (parseError : String) (turns : Nat)
    (account : AccountName) (container blob : String) (offset length : UInt64) (w : World) :
    Except Fault (Ended Bytes × World) :=
  match Azure.getBlobRange parseAuthority parseError account container blob offset length with
  | .error e => return (.returned (.error e), w)
  | .ok request => run (client.rangeTurn env turns request) turns ⟨0, w⟩

end BlobClient

end BlobCache.Azure
