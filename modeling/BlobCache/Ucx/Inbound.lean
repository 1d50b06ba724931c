import BlobCache.Conc.Ends
import BlobCache.Node.Replay
import BlobCache.Ucx.Runtime

/-!
The server side of a chunk request over UCX. `handle_inbound_request` reads the
chunk from the cache in a blocking task, straight into the tail of the response,
asks the chunk provider when the requester is willing to wait, and otherwise
answers with a miss. It builds the response in three places; here each of them is
compared with `encode_response`, and then with what `decode_response` makes of it.

The handler and its blocking task are jobs beside those of the node. Any thread
can be lost between two of its steps. The response is sent by
`server_send_response`, which is a task of the runtime.
-/

namespace BlobCache.Ucx.Inbound

open Conc Node

def statusOk : Nat := 0

def statusMiss : Nat := 1

def statusErr : Nat := 2

def encodeResponse (status : Nat) (payload : Bytes) : Except BcError Bytes :=
  let n := payload.length
  if maxResponseBytes < n then .error (.peer s!"response too large: {n} bytes")
  else .ok (leBytes 4 status ++ (leBytes 4 (n % 2 ^ 32) ++ payload))

/-- The buffer that `handle_inbound_request` fills by hand; `served` is the size that
goes into the header. -/
def handFrame (served : Nat) (payload : Bytes) : Bytes :=
  leBytes 4 statusOk ++ (leBytes 4 (served % 2 ^ 32) ++ payload)

inductive Job where
  | readFrame (key : ChunkKey) (reqLen : Nat)
  | handleInboundRequest (data : Bytes) (wired : Bool)
  deriving DecidableEq

inductive Val where
  | frame (r : Option (Bytes × Nat))
  | handled (r : Outcome BcError (Option Bytes))
  deriving DecidableEq

def effect : Effect := ⟨Empty, fun o => o.elim, Job, Val⟩

instance : DecidableEq effect.Job := inferInstanceAs (DecidableEq Job)

instance : DecidableEq effect.Val := inferInstanceAs (DecidableEq Val)

abbrev ServerM := Program (Node.effect.extend effect)

/-- The closure of the blocking task. -/
def readFrame (key : ChunkKey) (reqLen : Nat) : NodeM (Option (Bytes × Nat)) := do
  let size : Option Nat ← disk (.entrySize key)
  match size with
  | none => return none
  | some size =>
      if reqLen < size then return none
      else
        match ← tryGetIntoSlice key size with
        | none => return none
        | some (_, payload) => return some (handFrame size payload, size)

/-- A response without a payload. -/
def reply (status : Nat) : Outcome BcError (Option Bytes) :=
  match encodeResponse status [] with
  | .ok response => .ok (some response)
  | .error e => .fail e

variable (cfg : NodeConfig)

/-- The provider's answer to a request that may wait; `wired` is whether there is a
provider. -/
def askProvider (request : ChunkRequest) (wired : Bool) : ServerM (Option Bytes) :=
  if 0 < request.waitMs.toNat ∧ 0 < request.length.toNat ∧ wired then
    (servePeerChunk cfg request.key request.length.toNat request.waitMs.toNat).lift effect
  else return none

/-- The response to a request whose length is in range. -/
def respond (request : ChunkRequest) (wired : Bool) :
    ServerM (Outcome BcError (Option Bytes)) := do
  let reqLen := request.length.toNat
  match ← Program.call (E := Node.effect.extend effect) (.inr (.readFrame request.key reqLen)) with
  | some (.inr (.frame (some (buf, _)))) => return .ok (some buf)
  | some (.inr (.frame none)) =>
      match ← askProvider cfg request wired with
      | some b =>
          if reqLen < b.length then return reply statusMiss
          else return .ok (some (handFrame b.length b))
      | none => return reply statusMiss
  | _ => return reply statusErr

/-- `handle_inbound_request` up to the sending; there is no response to a request with
an invalid length. -/
def handleInboundRequest (utf8Error : Bytes → String) (data : Bytes) (wired : Bool) :
    ServerM (Outcome BcError (Option Bytes)) :=
  match decodeRequest utf8Error data with
  | .fail e => return .fail e
  | .crash => return .crash
  | .ok request =>
      if request.length.toNat = 0 ∨ maxResponseBytes < request.length.toNat then
        return .ok none
      else respond cfg request wired

variable (utf8Error : Bytes → String)

def body : Job → ServerM Val
  | .readFrame key reqLen => do return .frame (← (readFrame key reqLen).lift effect)
  | .handleInboundRequest data wired => do
      return .handled (← handleInboundRequest cfg utf8Error data wired)

def server : Extension (Node.machine cfg) effect where
  exec _ o _ _ := o.elim
  body := body cfg utf8Error
  cancellable _ p :=
    match p with
    | .ret _ => false
    | _ => true

/-- The node with the server of its chunks. -/
def machine : Machine (Node.effect.extend effect) :=
  (Node.machine cfg).extend (server cfg utf8Error)

/-! ## Frames -/

section Frames

variable {status : Nat} {payload data : Bytes} {n : UInt32}

theorem encodeResponse_of_le (h : payload.length ≤ maxResponseBytes) :
    encodeResponse status payload =
      .ok (leBytes 4 status ++ (leBytes 4 payload.length ++ payload)) := by
  have hsmall : payload.length < 2 ^ 32 := by
    simp only [maxResponseBytes] at h
    omega
  rw [encodeResponse, if_neg (Nat.not_lt.mpr h), Nat.mod_eq_of_lt hsmall]

/-- The buffer is the encoded response when the header holds the size of the payload. -/
theorem encodeResponse_eq_handFrame (h : payload.length ≤ maxResponseBytes) :
    encodeResponse statusOk payload = .ok (handFrame payload.length payload) := by
  rw [encodeResponse, if_neg (Nat.not_lt.mpr h), handFrame]

/-- What the client reads in a frame: the header as it was written. -/
theorem decodeResponse_frame (hstatus : status < 2 ^ 32) (h : payload.length ≤ maxResponseBytes) :
    decodeResponse (leBytes 4 status ++ (leBytes 4 payload.length ++ payload)) n =
      let len := payload.length
      if status = 0 then
        if len = 0 ∨ maxResponseBytes < len then .error (.peer s!"bad resp len {len}")
        else if n.toNat < len then
          .error (.peer s!"response larger than requested: got {len}, expected {n}")
        else .ok payload
      else if status = 1 then .error (.notFound "peer miss")
      else if status = 2 then .error (.peer "ucx peer returned error")
      else .error (.peer s!"ucx peer status {status}") := by
  have hsmall : payload.length < 256 ^ 4 := by
    simp only [maxResponseBytes] at h
    omega
  have hfirst : slice (leBytes 4 status ++ (leBytes 4 payload.length ++ payload)) 0 4 =
      leBytes 4 status := by
    simp [slice]
  have hsecond : slice (leBytes 4 status ++ (leBytes 4 payload.length ++ payload)) 4 8 =
      leBytes 4 payload.length := by
    simp [slice]
  have hrest : (leBytes 4 status ++ (leBytes 4 payload.length ++ payload)).drop 8 = payload := by
    rw [← List.append_assoc]
    apply List.drop_left'
    simp
  have hlong : ¬(leBytes 4 status ++ (leBytes 4 payload.length ++ payload)).length < 8 := by
    simp only [List.length_append, leBytes_length]
    omega
  have hread : ofLeBytes (leBytes 4 status) = status := ofLeBytes_leBytes 4 (by omega)
  have hlen : ofLeBytes (leBytes 4 payload.length) = payload.length :=
    ofLeBytes_leBytes 4 hsmall
  simp only [decodeResponse, if_neg hlong, hfirst, hsecond, hrest, hread, hlen, ne_eq,
    not_true_eq_false, if_false]

/-- The client takes a payload that is there, as far as it asked for that much. -/
theorem decodeResponse_handFrame (h : payload.length ≤ maxResponseBytes) :
    decodeResponse (handFrame payload.length payload) n =
      let len := payload.length
      if payload = [] then .error (.peer "bad resp len 0")
      else if n.toNat < len then
        .error (.peer s!"response larger than requested: got {len}, expected {n}")
      else .ok payload := by
  have hsmall : payload.length % 2 ^ 32 = payload.length := by
    apply Nat.mod_eq_of_lt
    simp only [maxResponseBytes] at h
    omega
  rw [handFrame, hsmall, decodeResponse_frame (by decide) h]
  simp only [statusOk, if_true]
  cases payload with
  | nil => rfl
  | cons b rest =>
      have hfits : ¬((b :: rest).length = 0 ∨ maxResponseBytes < (b :: rest).length) := by
        rw [List.length_cons] at h ⊢
        omega
      rw [if_neg hfits, if_neg (List.cons_ne_nil b rest)]

theorem decodeResponse_ok_iff (h : payload.length ≤ maxResponseBytes) (got : Bytes) :
    decodeResponse (handFrame payload.length payload) n = .ok got ↔
      got = payload ∧ 1 ≤ payload.length ∧ payload.length ≤ n.toNat := by
  simp only [decodeResponse_handFrame h]
  split_ifs with hnil hlarge
  · simp [hnil]
  · simp [hlarge]
  · have hpos := List.length_pos_iff.mpr hnil
    rw [Except.ok.injEq]
    exact ⟨fun heq => ⟨heq.symm, hpos, Nat.le_of_not_lt hlarge⟩, fun hgot => hgot.1.symm⟩

/-- A header, and a body of the length it gives. -/
def Complete (data : Bytes) : Prop :=
  8 ≤ data.length ∧ ofLeBytes (slice data 4 8) = (data.drop 8).length

theorem decodeResponse_incomplete (h : ¬Complete data) :
    ∃ e, decodeResponse data n = .error e := by
  by_cases hshort : data.length < 8
  · simp only [decodeResponse, if_pos hshort]
    exact ⟨_, rfl⟩
  · have hmismatch : ofLeBytes (slice data 4 8) ≠ (data.drop 8).length := by
      intro hlen
      exact h ⟨Nat.le_of_not_lt hshort, hlen⟩
    simp only [decodeResponse, if_neg hshort, if_pos hmismatch]
    exact ⟨_, rfl⟩

end Frames

/-! ## What the handler is told -/

/-- What a thread of the node or of its server is told. -/
abbrev Log := List (Told (Node.effect.extend effect))

/-- The blocking task of a handler. -/
def task (request : ChunkRequest) (u : Nat) : Handle (Node.effect.extend effect) :=
  ⟨u, .inr (.readFrame request.key request.length.toNat)⟩

/-- The handler started the task `u`, which ended with `r`, and was told `rest` afterwards. -/
def Heard (log : Log) (request : ChunkRequest) (u : Nat) (r : Option (Node.Val ⊕ Val))
    (rest : Log) : Prop :=
  log = .started (task request u) :: .ended (task request u) r :: rest

/-- `payload` is all that a thread asked for and got from the file of the chunk. -/
def ReadFrom (log : Log) (key : ChunkKey) (payload : Bytes) : Prop :=
  ∃ fd, .response (.inl (.disk (.openFile key))) (some fd : Option Nat) ∈ log ∧
    .response (.inl (.disk (.readExactAt fd 0 payload.length))) (some payload : Option Bytes) ∈ log

/-- The bytes that answer the request of handler `t`: what its task read, when that returned
a response, and otherwise what the provider returned, unless it is more than was asked for. -/
inductive Served (log : Nat → Log) (t : Nat) (request : ChunkRequest) (wired : Bool)
    (payload : Bytes) : Prop where
  | cache {u : Nat} {response : Bytes × Nat} {rest : Log} :
      Heard (log t) request u (some (.inr (.frame (some response)))) rest →
      ReadFrom (log u) request.key payload → Served log t request wired payload
  | provider {u : Nat} {rest : Log} :
      Heard (log t) request u (some (.inr (.frame none))) rest →
      (askProvider cfg request wired).After rest (some payload) →
      payload.length ≤ request.length.toNat → Served log t request wired payload

/-- The task of handler `t` was lost. -/
def Lost (log : Nat → Log) (t : Nat) (request : ChunkRequest) : Prop :=
  ∃ u rest, Heard (log t) request u none rest

/-- The handler awaited its task, and what the client makes of the response: it takes exactly
the bytes that are served, unless there are none of them, and reports a miss exactly when
nothing is served, unless the task was lost. -/
structure Understood (log : Nat → Log) (t : Nat) (request : ChunkRequest) (wired : Bool)
    (response : Bytes) : Prop where
  heard : ∃ u r rest, Heard (log t) request u r rest
  encoded : ∀ payload, Served cfg log t request wired payload →
    encodeResponse statusOk payload = .ok response
  taken : ∀ got, decodeResponse response request.length = .ok got ↔
    Served cfg log t request wired got ∧ got ≠ []
  empty : decodeResponse response request.length = .error (.peer "bad resp len 0") ↔
    Served cfg log t request wired []
  miss : decodeResponse response request.length = .error (.notFound "peer miss") ↔
    (∀ payload, ¬Served cfg log t request wired payload) ∧ ¬Lost log t request
  lost : decodeResponse response request.length = .error (.peer "ucx peer returned error") ↔
    Lost log t request

section Answers

variable {cfg utf8Error} {s : Node.State} {c : Config (machine cfg utf8Error)}
  {log : Nat → Log} {t : Nat} {request : ChunkRequest} {wired : Bool}

theorem Heard.unique {log rest rest' : Log} {u u' : Nat} {r r' : Option (Node.Val ⊕ Val)}
    (h : Heard log request u r rest) (h' : Heard log request u' r' rest') :
    u = u' ∧ r = r' ∧ rest = rest' := by
  cases h.symm.trans h'
  exact ⟨rfl, rfl, rfl⟩

/-- A read that fills its destination fills all of it. -/
theorem length_of_read (hlog : Config.Logged s c log) {u fd offset len : Nat} {b : Bytes}
    (hread : .response (.inl (.disk (.readExactAt fd offset len))) (some b : Option Bytes) ∈
      log u) : b.length = len := by
  obtain ⟨v, ch, s₁, s₂, hex⟩ := hlog.exists_exec hread
  have hnode : Node.exec cfg v (.disk (.readExactAt fd offset len)) ch s₁ = some (some b, s₂) := hex
  obtain ⟨hdisk, -, -⟩ := exec_disk hnode
  have hread : s₁.disk.readExactAt fd offset len ch.disk = some b := congrArg Prod.fst hdisk
  unfold Cache.Disk.readExactAt at hread
  split_ifs at hread with hio hlen
  cases hread
  rw [slice_length hlen]
  omega

/-- What the task is told when it returns a response. -/
def readLog (key : ChunkKey) (fd size : Nat) (payload : Bytes) : Log :=
  [.response (.inl (.disk (.entrySize key))) (some size : Option Nat),
    .response (.inl (.disk (.entrySize key))) (some size : Option Nat),
    .response (.inl (.disk (.openFile key))) (some fd : Option Nat),
    .response (.inl (.disk (.readExactAt fd 0 size))) (some payload : Option Bytes),
    .response (.inl (.disk (.touchLru key))) true, .response (.inl (.disk .countHit)) ()]

theorem readFrom_readLog {key : ChunkKey} {fd size : Nat} {payload q : Bytes}
    (h : ReadFrom (readLog key fd size payload) key q) : q = payload := by
  obtain ⟨fd', -, hread⟩ := h
  simp only [readLog, List.mem_cons, List.not_mem_nil, or_false] at hread
  rcases hread with h | h | h | h | h | h
  all_goals cases h
  rfl

theorem readFrame_after {key : ChunkKey} {reqLen : Nat} {log : Log} {frame : Bytes × Nat}
    (h : ((readFrame key reqLen).lift effect).After log (some frame)) :
    ∃ fd size payload, size ≤ reqLen ∧ frame = (handFrame size payload, size) ∧
      log = readLog key fd size payload := by
  obtain ⟨size, log₁, rfl, h⟩ := h
  cases size with
  | none => cases h.1
  | some size =>
      change (Program.lift effect (if reqLen < size then pure none else _)).After _ _ at h
      split_ifs at h with hlarge
      · cases h.1
      · obtain ⟨entry, log₂, rfl, h⟩ := h
        cases entry with
        | none =>
            obtain ⟨_, _, -, h⟩ := h
            cases h.1
        | some entrySize =>
            change (Program.lift effect (Program.bind
              (if size ≠ entrySize then pure none else _) _)).After _ _ at h
            split_ifs at h with hne
            · cases h.1
            · obtain ⟨fd, log₃, rfl, h⟩ := h
              cases fd with
              | none =>
                  obtain ⟨_, _, -, h⟩ := h
                  cases h.1
              | some fd =>
                  obtain ⟨buf, log₄, rfl, h⟩ := h
                  cases buf with
                  | none =>
                      obtain ⟨_, _, -, h⟩ := h
                      cases h.1
                  | some payload =>
                      obtain ⟨touched, log₅, rfl, h⟩ := h
                      cases touched with
                      | false => cases h.1
                      | true =>
                          obtain ⟨_, log₆, rfl, hframe, rfl⟩ := h
                          obtain rfl := not_not.mp hne
                          exact ⟨fd, size, payload, Nat.le_of_not_lt hlarge,
                            (Option.some.inj hframe).symm, rfl⟩

theorem Understood.of_served {payload : Bytes} (hheard : ∃ u r rest, Heard (log t) request u r rest)
    (hserved : Served cfg log t request wired payload)
    (honly : ∀ q, Served cfg log t request wired q → q = payload) (hlost : ¬Lost log t request)
    (hle : payload.length ≤ request.length.toNat)
    (hlen : request.length.toNat ≤ maxResponseBytes) :
    Understood cfg log t request wired (handFrame payload.length payload) := by
  have hsmall := hle.trans hlen
  have hiff : ∀ q, Served cfg log t request wired q ↔ payload = q := by
    intro q
    exact ⟨fun hq => (honly q hq).symm, fun hq => hq ▸ hserved⟩
  have hdec := @decodeResponse_handFrame payload request.length hsmall
  simp only [if_neg (Nat.not_lt.mpr hle)] at hdec
  have henc : ∀ q, Served cfg log t request wired q →
      encodeResponse statusOk q = .ok (handFrame payload.length payload) := by
    intro q hq
    rw [honly q hq]
    exact encodeResponse_eq_handFrame hsmall
  generalize handFrame payload.length payload = response at hdec henc ⊢
  by_cases hnil : payload = []
  · rw [if_pos hnil] at hdec
    subst hnil
    refine ⟨hheard, henc, ?_, ?_, ?_, ?_⟩ <;> simp [hdec, hiff, hlost]
  · rw [if_neg hnil] at hdec
    refine ⟨hheard, henc, ?_, ?_, ?_, ?_⟩
    · intro got
      rw [hdec, hiff, Except.ok.injEq]
      exact ⟨fun heq => ⟨heq, heq ▸ hnil⟩, fun h => h.1⟩
    all_goals simp [hdec, hiff, hnil, hlost]

/-- Nothing is served, and the status says why. -/
theorem Understood.of_status {status : Nat} {response : Bytes}
    (hheard : ∃ u r rest, Heard (log t) request u r rest)
    (hnone : ∀ q, ¬Served cfg log t request wired q)
    (hstatus : status = statusMiss ∧ ¬Lost log t request ∨ status = statusErr ∧ Lost log t request)
    (henc : encodeResponse status [] = .ok response) :
    Understood cfg log t request wired response := by
  have hframe := Except.ok.inj (henc.symm.trans (encodeResponse_of_le (Nat.zero_le _)))
  rcases hstatus with ⟨rfl, hlost⟩ | ⟨rfl, hlost⟩
  · have hdec : decodeResponse response request.length = .error (.notFound "peer miss") :=
      hframe ▸ decodeResponse_frame (by decide) (Nat.zero_le _)
    refine ⟨hheard, ?_, ?_, ?_, ?_, ?_⟩ <;> simp [hdec, hnone, hlost]
  · have hdec : decodeResponse response request.length =
        .error (.peer "ucx peer returned error") :=
      hframe ▸ decodeResponse_frame (by decide) (Nat.zero_le _)
    refine ⟨hheard, ?_, ?_, ?_, ?_, ?_⟩ <;> simp [hdec, hnone, hlost]

theorem reply_ok (status : Nat) :
    ∃ response, reply status = .ok (some response) ∧ encodeResponse status [] = .ok response := by
  have henc : encodeResponse status [] = .ok (leBytes 4 status ++ (leBytes 4 0 ++ [])) :=
    encodeResponse_of_le (Nat.zero_le _)
  refine ⟨_, ?_, henc⟩
  rw [reply, henc]

/-- What the blocking task was told. -/
theorem task_after (hrec : c.Recorded log) {u : Nat} {v : Node.Val ⊕ Val}
    (hend : c.Ended (task request u) (some v)) :
    ∃ r, v = .inr (.frame r) ∧
      ((readFrame request.key request.length.toNat).lift effect).After (log u) r := by
  obtain ⟨w, hv, hbody⟩ := Program.After.of_map
    (p := body cfg utf8Error (.readFrame request.key request.length.toNat)) (f := Sum.inr)
    (hrec.after hend)
  obtain ⟨r, hw, hread⟩ := Program.After.of_map (f := Val.frame) hbody
  exact ⟨r, hv.trans (congrArg Sum.inr hw), hread⟩

/-- The handler after its task returned a response. -/
theorem understood_of_frame (hlog : Config.Logged s c log)
    (hlen : request.length.toNat ≤ maxResponseBytes) {u : Nat} {frame : Bytes × Nat} {rest : Log}
    (hheard : Heard (log t) request u (some (.inr (.frame (some frame)))) rest)
    (hread : ((readFrame request.key request.length.toNat).lift effect).After (log u)
      (some frame)) : Understood cfg log t request wired frame.1 := by
  obtain ⟨fd, size, payload, hle, rfl, hu⟩ := readFrame_after hread
  have hopened : .response (.inl (.disk (.openFile request.key))) (some fd : Option Nat) ∈
      log u := by
    simp [hu, readLog]
  have hgot : .response (.inl (.disk (.readExactAt fd 0 size))) (some payload : Option Bytes) ∈
      log u := by
    simp [hu, readLog]
  obtain rfl := length_of_read hlog hgot
  have hfrom : ReadFrom (log u) request.key payload := ⟨fd, hopened, hgot⟩
  refine .of_served ⟨u, _, rest, hheard⟩ (.cache hheard hfrom) ?_ ?_ hle hlen
  · intro q hq
    cases hq with
    | cache hheard' hq =>
        obtain ⟨rfl, -, -⟩ := hheard.unique hheard'
        rw [hu] at hq
        exact readFrom_readLog hq
    | provider hheard' _ _ => cases (hheard.unique hheard').2.1
  · rintro ⟨u', rest', hlost⟩
    cases (hheard.unique hlost).2.1

/-- The handler after its task returned no response and the provider returned `provided`. -/
theorem understood_of_miss (hlen : request.length.toNat ≤ maxResponseBytes) {u : Nat} {rest : Log}
    (hheard : Heard (log t) request u (some (.inr (.frame none))) rest) {provided : Option Bytes}
    (hasked : (askProvider cfg request wired).After rest provided) :
    (∀ b, provided = some b → b.length ≤ request.length.toNat →
      Understood cfg log t request wired (handFrame b.length b)) ∧
    ((∀ b, provided = some b → request.length.toNat < b.length) →
      ∀ response, encodeResponse statusMiss [] = .ok response →
        Understood cfg log t request wired response) := by
  have hlost : ¬Lost log t request := by
    rintro ⟨u', rest', hlost⟩
    cases (hheard.unique hlost).2.1
  have honly : ∀ q, Served cfg log t request wired q →
      provided = some q ∧ q.length ≤ request.length.toNat := by
    intro q hq
    cases hq with
    | cache hheard' _ => cases (hheard.unique hheard').2.1
    | provider hheard' hasked' hle =>
        obtain ⟨-, -, rfl⟩ := hheard.unique hheard'
        exact ⟨hasked.unique hasked', hle⟩
  constructor
  · rintro b rfl hb
    refine .of_served ⟨u, _, rest, hheard⟩ (.provider hheard hasked hb) ?_ hlost hb hlen
    intro q hq
    exact (Option.some.inj (honly q hq).1).symm
  · intro hlarge response henc
    refine .of_status ⟨u, _, rest, hheard⟩ ?_ (.inl ⟨rfl, hlost⟩) henc
    intro q hq
    obtain ⟨hprovided, hle⟩ := honly q hq
    exact absurd hle (Nat.not_le.mpr (hlarge q hprovided))

theorem handled_understood (hlog : Config.Logged s c log) {data : Bytes}
    {out : Outcome BcError (Option Bytes)}
    (hend : c.Ended ⟨t, .inr (.handleInboundRequest data wired)⟩ (some (.inr (.handled out))))
    (hdecode : decodeRequest utf8Error data = .ok request) (hpos : request.length.toNat ≠ 0)
    (hlen : request.length.toNat ≤ maxResponseBytes) :
    ∃ response, out = .ok (some response) ∧ Understood cfg log t request wired response := by
  have hrec := hlog.recorded
  obtain ⟨w, hw, hbody⟩ := Program.After.of_map
    (p := body cfg utf8Error (.handleInboundRequest data wired)) (f := Sum.inr) (hrec.after hend)
  obtain ⟨out', hout, hhandle⟩ := Program.After.of_map (f := Val.handled) hbody
  cases hw
  cases hout
  have hvalid : ¬(request.length.toNat = 0 ∨ maxResponseBytes < request.length.toNat) := by
    omega
  rw [handleInboundRequest, hdecode] at hhandle
  simp only [if_neg hvalid] at hhandle
  obtain ⟨u, _, hstarted, r, rest, rfl, hhandle⟩ := hhandle
  have hheard : Heard (log t) request u r rest := hstarted
  cases r with
  | none =>
      obtain ⟨response, hreply, henc⟩ := reply_ok statusErr
      refine ⟨response, hhandle.1.symm.trans hreply,
        .of_status ⟨u, _, rest, hheard⟩ ?_ (.inr ⟨rfl, u, rest, hheard⟩) henc⟩
      intro q hq
      cases hq with
      | cache hheard' _ | provider hheard' _ _ => cases (hheard.unique hheard').2.1
  | some v =>
      have hawaited : (task request u, some v) ∈ awaits (log t) := by
        rw [hheard]
        exact List.mem_cons_self
      obtain ⟨frame, rfl, hread⟩ := task_after hrec (hrec.awaited t _ hawaited)
      cases frame with
      | some frame => exact ⟨_, hhandle.1.symm, understood_of_frame hlog hlen hheard hread⟩
      | none =>
          change (askProvider cfg request wired >>= _).After rest out at hhandle
          obtain ⟨provided, rest', _, rfl, hasked, hhandle⟩ := hhandle.of_bind
          obtain ⟨response, hreply, henc⟩ := reply_ok statusMiss
          cases provided with
          | none =>
              obtain ⟨hout, rfl⟩ := hhandle
              rw [List.append_nil] at hheard
              exact ⟨response, hout.symm.trans hreply,
                (understood_of_miss hlen hheard hasked).2 nofun response henc⟩
          | some b =>
              change Program.After (if request.length.toNat < b.length then
                pure (reply statusMiss) else _) _ _ at hhandle
              split_ifs at hhandle with hlarge
              · obtain ⟨hout, rfl⟩ := hhandle
                rw [List.append_nil] at hheard
                refine ⟨response, hout.symm.trans hreply,
                  (understood_of_miss hlen hheard hasked).2 ?_ response henc⟩
                rintro _ ⟨⟩
                exact hlarge
              · obtain ⟨hout, rfl⟩ := hhandle
                rw [List.append_nil] at hheard
                exact ⟨_, hout.symm, (understood_of_miss hlen hheard hasked).1 b rfl
                  (Nat.le_of_not_lt hlarge)⟩

end Answers

/-- Response frames. A payload is decoded from its encoding when it is not empty and not
longer than what was asked for and what a response can hold; what is not a complete frame
is an error; and the responses of the server are encodings of what is served, which the client
takes, except that it refuses an empty payload. -/
theorem response_frames {s : Node.State} {c : Config (machine cfg utf8Error)} {log : Nat → Log}
    (hlog : Config.Logged s c log) :
    (∀ (payload : Bytes) (n : UInt32),
      let decoded := (encodeResponse statusOk payload).bind (decodeResponse · n)
      (decoded = .ok payload ↔
        1 ≤ payload.length ∧ payload.length ≤ min n.toNat maxResponseBytes) ∧
      (decoded = .ok payload ∨ ∃ e, decoded = .error e)) ∧
    (∀ (data : Bytes) (n : UInt32), ¬Complete data → ∃ e, decodeResponse data n = .error e) ∧
    ∀ (t : Nat) (data : Bytes) (wired : Bool) (request : ChunkRequest)
      (out : Outcome BcError (Option Bytes)),
      c.Ended ⟨t, .inr (.handleInboundRequest data wired)⟩ (some (.inr (.handled out))) →
      decodeRequest utf8Error data = .ok request → request.length.toNat ≠ 0 →
      request.length.toNat ≤ maxResponseBytes →
      ∃ response, out = .ok (some response) ∧ Understood cfg log t request wired response := by
  refine ⟨?_, fun data n => decodeResponse_incomplete, ?_⟩
  · intro payload n
    rcases Nat.lt_or_ge maxResponseBytes payload.length with hlarge | hsmall
    · have henc : ∃ e, encodeResponse statusOk payload = .error e := by
        rw [encodeResponse, if_pos hlarge]
        exact ⟨_, rfl⟩
      obtain ⟨e, henc⟩ := henc
      simp only [henc, Except.bind]
      refine ⟨⟨?_, by omega⟩, .inr ⟨e, rfl⟩⟩
      intro hcontra
      cases hcontra
    · rw [encodeResponse_eq_handFrame hsmall]
      simp only [Except.bind]
      constructor
      · rw [decodeResponse_ok_iff hsmall, Nat.le_min]
        exact ⟨fun h => ⟨h.2.1, h.2.2, hsmall⟩, fun h => ⟨rfl, h.1, h.2.1⟩⟩
      · cases hdecode : decodeResponse (handFrame payload.length payload) n with
        | error e => exact .inr ⟨e, rfl⟩
        | ok got => exact .inl (by rw [((decodeResponse_ok_iff hsmall got).mp hdecode).1])
  · intro t data wired request out hend hdecode hpos hlen
    exact handled_understood hlog hend hdecode hpos hlen

section Sample

/-- A peer asks for the first chunk of the sample node, and does not wait for it. -/
def sampleRequest : ChunkRequest := ⟨⟨sampleKey 0, 4, "peer"⟩, 0, ""⟩

def sampleData : Bytes :=
  sampleRequest.frame ++ (beBytes 4 sampleRequest.waitMs.toNat ++ fieldBytes "")

/-- The request is answered from the cache, which has `chunk` for the key. -/
def answerTurns (chunk : Bytes) : List (Label (machine sampleConfig fun _ => "")) :=
  let turns (t n : Nat) : List (Label (machine sampleConfig fun _ => "")) :=
    List.replicate n (.run t Choice.benign)
  [.start (.inl (.insertReceivedChunk (sampleKey 0) chunk))] ++ turns 0 3 ++ turns 1 1 ++
    turns 2 7 ++ turns 1 6 ++ [.start (.inr (.handleInboundRequest sampleData false))] ++
    turns 3 1 ++ turns 4 7 ++ turns 3 2

/-- The handler has built `response`. -/
def hasAnswered (response : Bytes) (c : Config (machine sampleConfig fun _ => "")) : Bool :=
  c.answered 3 (.handleInboundRequest sampleData false) (.handled (.ok (some response)))

theorem sampleData_decodes : decodeRequest (fun _ => "") sampleData = .ok sampleRequest := by
  decide +kernel

theorem response_frames_of_four_bytes :
    ∃ (c : Config (machine sampleConfig fun _ => "")) (log : Nat → Log),
      Config.Logged (Node.State.new sampleConfig) c log ∧
      c.Ended ⟨3, .inr (.handleInboundRequest sampleData false)⟩
        (some (.inr (.handled (.ok (some [0, 0, 0, 0, 4, 0, 0, 0, 1, 2, 3, 4]))))) ∧
      Served sampleConfig log 3 sampleRequest false [1, 2, 3, 4] := by
  obtain ⟨c, hreach, hc⟩ := Config.reach_of_labels
    (Config.init (Node.State.new sampleConfig) : Config (machine sampleConfig fun _ => ""))
    (answerTurns [1, 2, 3, 4]) (hasAnswered [0, 0, 0, 0, 4, 0, 0, 0, 1, 2, 3, 4])
    (by decide +kernel)
  have hend := Config.ended_of_answered hc
  obtain ⟨log, hlog⟩ := hreach.exists_log
  obtain ⟨response, hout, hclient⟩ := (response_frames sampleConfig (fun _ => "") hlog).2.2 3
    sampleData false sampleRequest _ hend sampleData_decodes (by decide) (by decide)
  cases hout
  exact ⟨c, log, hlog, hend, ((hclient.taken [1, 2, 3, 4]).mp (by decide)).1⟩

/-- An entry of no bytes is served as a payload of no bytes, which the client reports as an
error of the peer and not as a miss. -/
theorem empty_payload_refused :
    ∃ c : Config (machine sampleConfig fun _ => ""),
      Config.Reach (fun _ _ => True) (Config.init (Node.State.new sampleConfig)) c ∧
      ∃ response,
        c.Ended ⟨3, .inr (.handleInboundRequest sampleData false)⟩
          (some (.inr (.handled (.ok (some response))))) ∧
        encodeResponse statusOk [] = .ok response ∧ 0 ≤ sampleRequest.length.toNat ∧
        decodeRequest (fun _ => "") sampleData = .ok sampleRequest ∧
        decodeResponse response sampleRequest.length = .error (.peer "bad resp len 0") := by
  obtain ⟨c, hreach, hc⟩ := Config.reach_of_labels
    (Config.init (Node.State.new sampleConfig) : Config (machine sampleConfig fun _ => ""))
    (answerTurns []) (hasAnswered [0, 0, 0, 0, 0, 0, 0, 0]) (by decide +kernel)
  exact ⟨c, hreach, _, Config.ended_of_answered hc, rfl, Nat.zero_le _, sampleData_decodes, rfl⟩

end Sample

end BlobCache.Ucx.Inbound
