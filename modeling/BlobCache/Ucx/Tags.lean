import BlobCache.Conc.Network
import BlobCache.Conc.Run
import BlobCache.Ucx.Generations
import BlobCache.Ucx.Inbound

/-!
Tags. A chunk request over UCX travels under a tag made of a class and a number that the
requesting process counts up, and its response under the same number in another class. The
worker of a node has one queue for both: the server takes any message of the first class,
and a client exactly the one with the tag it has posted a receive for.

The network here is that of any number of nodes, each with the server of its chunks. A message
may be taken several times or never. What is kept of it is history: which receives were
posted, which handlers were started and every message that was sent.
-/

namespace BlobCache.Ucx

def tagClassMask : Nat := 0xFFFF000000000000

def tagIdMask : Nat := 0x0000FFFFFFFFFFFF

def tagReqBase : Nat := 0xBC01000000000000

def tagRespBase : Nat := 0xBC02000000000000

/-- `req_tag` of `client_fetch_inner`. -/
def reqTag (id : Nat) : Nat := tagReqBase ||| id

/-- `resp_tag` of `client_fetch_inner`. -/
def respTag (id : Nat) : Nat := tagRespBase ||| id

/-- `resp_tag` of `handle_inbound_request`. -/
def replyTag (senderTag : Nat) : Nat := tagRespBase ||| (senderTag &&& tagIdMask)

/-- What `ucp_tag_probe_nb` looks for. -/
def isRequestTag (tag : Nat) : Bool := tag &&& tagClassMask == tagReqBase

/-! ## Arithmetic of tags -/

section Arithmetic

variable {id id' tag : Nat}

theorem and_tagIdMask (n : Nat) : n &&& tagIdMask = n % 2 ^ 48 := by
  have hmask : tagIdMask = 2 ^ 48 - 1 := by decide
  rw [hmask, Nat.and_two_pow_sub_one_eq_mod]

/-- A base has no bits where the number goes. -/
theorem or_of_lt {base : Nat} (cls : Nat) (hbase : base = cls * 2 ^ 48) (h : id < 2 ^ 48) :
    base ||| id = cls * 2 ^ 48 + id := by
  have hshift := Nat.shiftLeft_add_eq_or_of_lt h cls
  rw [Nat.shiftLeft_eq] at hshift
  rw [hbase, hshift]

theorem reqTag_eq (h : id < 2 ^ 48) : reqTag id = 0xBC01 * 2 ^ 48 + id :=
  or_of_lt 0xBC01 (by decide) h

theorem respTag_eq (h : id < 2 ^ 48) : respTag id = 0xBC02 * 2 ^ 48 + id :=
  or_of_lt 0xBC02 (by decide) h

/-- The server answers under the tag that the client waits for. -/
theorem replyTag_reqTag (h : id < 2 ^ 48) : replyTag (reqTag id) = respTag id := by
  have hid : reqTag id % 2 ^ 48 = id := by
    rw [reqTag_eq h]
    omega
  rw [replyTag, and_tagIdMask, hid, respTag]

theorem respTag_injective (h : id < 2 ^ 48) (h' : id' < 2 ^ 48) (heq : respTag id = respTag id') :
    id = id' := by
  rw [respTag_eq h, respTag_eq h'] at heq
  omega

theorem reqTag_ne_respTag (h : id < 2 ^ 48) (h' : id' < 2 ^ 48) : reqTag id ≠ respTag id' := by
  rw [reqTag_eq h, respTag_eq h']
  omega

/-- No response is taken for a request. -/
theorem isRequestTag_replyTag (tag : Nat) : isRequestTag (replyTag tag) = false := by
  have hlow : tag % 2 ^ 48 < 2 ^ 48 := Nat.mod_lt _ (by decide)
  have htag : replyTag tag >>> 48 = 0xBC02 := by
    rw [replyTag, and_tagIdMask, or_of_lt 0xBC02 (by decide) hlow, Nat.shiftRight_eq_div_pow]
    omega
  rw [isRequestTag, beq_eq_false_iff_ne]
  intro heq
  have hclass := congrArg (· >>> 48) heq
  simp only [Nat.shiftRight_and_distrib, htag] at hclass
  revert hclass
  decide

end Arithmetic

/-! ## The network -/

namespace Net

open Conc Node

variable {ι : Type}

/-- What a node is made of: its configuration, and the text of a decoding error. -/
structure RdmaService where
  cfg : NodeConfig
  utf8Error : Bytes → String

abbrev RdmaService.machine (svc : RdmaService) : Machine (Node.effect.extend Inbound.effect) :=
  Inbound.machine svc.cfg svc.utf8Error

/-- A receive that thread `thread` of a node has posted for its request. -/
structure Posted (ι : Type) where
  node : ι
  thread : Nat
  id : Nat
  req : PeerRequest

structure Packet (ι : Type) where
  dest : ι
  tag : Nat
  data : Bytes

/-- A thread that runs `handle_inbound_request` for a message. -/
structure ServerTask (ι : Type) where
  node : ι
  thread : Nat
  tag : Nat
  data : Bytes
  wired : Bool

end Net

open Net Conc Node

/-- `reqId` is the counter of each process. -/
structure Net {ι : Type} (svc : ι → RdmaService) where
  nodes : (i : ι) → Config (svc i).machine
  reqId : ι → Nat
  posted : List (Posted ι)
  handlers : List (ServerTask ι)
  wire : List (Packet ι)

namespace Net

variable {ι : Type} {svc : ι → RdmaService}

inductive Step (svc : ι → RdmaService) where
  | node (i : ι) (l : Label (svc i).machine)
  /-- Thread `t` of node `i` sends its request to the worker of node `j`. -/
  | send (i : ι) (t : Nat) (j : ι) (rid : Option RequestId)
  /-- The server of its destination takes a message. -/
  | receive (n : Nat) (wired : Bool)
  /-- A handler that has ended sends its response to node `k`, for which its runtime has the
  address of the requester. -/
  | respond (n : Nat) (k : ι)

def new (svc : ι → RdmaService) : Net svc where
  nodes i := .init (Node.State.new (svc i).cfg)
  reqId _ := 1
  posted := []
  handlers := []
  wire := []

/-- The request that a thread waits for. -/
def awaitedRequest {s : RdmaService} (c : Config s.machine) (t : Nat) : Option PeerRequest :=
  match c.threads[t]? with
  | some ⟨_, _, .running (.op (.inl (Op.fetch (.peerFetch req))) _)⟩ => some req
  | _ => none

def ridText (rid : Option RequestId) : String := (rid.map RequestId.value).getD ""

/-- The frame of a request of node `i`. -/
def frameOf (svc : ι → RdmaService) (i : ι) (req : PeerRequest) (rid : Option RequestId) :
    Except BcError Bytes :=
  encodeRequest req.key (.ofNat req.length) (svc i).cfg.meId (.ofNat req.waitMs) (ridText rid)

def send [DecidableEq ι] (s : Net svc) (i : ι) (t : Nat) (j : ι) (req : PeerRequest)
    (data : Bytes) : Net svc where
  nodes := s.nodes
  reqId := Function.update s.reqId i (s.reqId i + 1)
  posted := ⟨i, t, s.reqId i, req⟩ :: s.posted
  handlers := s.handlers
  wire := ⟨j, reqTag (s.reqId i), data⟩ :: s.wire

/-- The response of a handler that has ended with one. -/
def responseOf (s : Net svc) (h : ServerTask ι) : Option Bytes :=
  match (s.nodes h.node).result h.thread with
  | some (.inr (.handled (.ok (some response)))) => some response
  | _ => none

/-- The node that a request names as its requester. -/
def requesterOf (s : RdmaService) (data : Bytes) : Option String :=
  match decodeRequest s.utf8Error data with
  | .ok request => some request.requesterPeerId
  | _ => none

def step [DecidableEq ι] (s : Net svc) : Step svc → Option (Net svc)
  | .node i l =>
      ((s.nodes i).step l).map fun ec => { s with nodes := Function.update s.nodes i ec.2 }
  | .send i t j rid =>
      match awaitedRequest (s.nodes i) t with
      | none => none
      | some req =>
          let length := (UInt32.ofNat req.length).toNat
          if length = 0 ∨ maxResponseBytes < length then none
          else
            match frameOf svc i req rid with
            | .ok data => some (s.send i t j req data)
            | .error _ => none
  | .receive n wired =>
      match s.wire[n]? with
      | none => none
      | some m =>
          if isRequestTag m.tag then
            ((s.nodes m.dest).step (.start (.inr (.handleInboundRequest m.data wired)))).map
              fun ec => { s with
                nodes := Function.update s.nodes m.dest ec.2
                handlers := ⟨m.dest, (s.nodes m.dest).threads.length, m.tag, m.data, wired⟩ ::
                  s.handlers }
          else none
  | .respond n k =>
      match s.handlers[n]? with
      | none => none
      | some h =>
          match s.responseOf h with
          | none => none
          | some response =>
              if requesterOf (svc h.node) h.data = some (svc k).cfg.meId then
                some { s with wire := ⟨k, replyTag h.tag, response⟩ :: s.wire }
              else none

/-! ## Which response is whose -/

/-- Where a packet comes from. -/
inductive Sent (s : Net svc) (m : Packet ι) : Prop where
  | request (p : Posted ι) (rid : Option RequestId) : p ∈ s.posted → m.tag = reqTag p.id →
      frameOf svc p.node p.req rid = .ok m.data → Sent s m
  | response (h : ServerTask ι) : h ∈ s.handlers → s.responseOf h = some m.data →
      requesterOf (svc h.node) h.data = some (svc m.dest).cfg.meId → m.tag = replyTag h.tag →
      Sent s m

structure Matched (s : Net svc) : Prop where
  counted : ∀ p ∈ s.posted, p.id < s.reqId p.node
  unique : ∀ p ∈ s.posted, ∀ q ∈ s.posted, p.node = q.node → p.id = q.id → p = q
  sent : ∀ m ∈ s.wire, Sent s m
  taken : ∀ h ∈ s.handlers, isRequestTag h.tag = true ∧
    (⟨h.node, h.tag, h.data⟩ : Packet ι) ∈ s.wire ∧
    (s.nodes h.node).job h.thread = some (.inr (.handleInboundRequest h.data h.wired))

theorem Matched.new : Matched (.new svc) where
  counted _ hp := by cases hp
  unique _ hp := by cases hp
  sent _ hm := by cases hm
  taken _ hh := by cases hh

/-- A later state of the network. -/
structure Later (s s' : Net svc) : Prop where
  posted : ∀ p ∈ s.posted, p ∈ s'.posted
  handlers : ∀ h ∈ s.handlers, h ∈ s'.handlers
  wire : ∀ m ∈ s.wire, m ∈ s'.wire
  job : ∀ i t j, (s.nodes i).job t = some j → (s'.nodes i).job t = some j
  result : ∀ i t v, (s.nodes i).result t = some v → (s'.nodes i).result t = some v

variable {s s' : Net svc}

theorem Later.responseOf (h : Later s s') {hd : ServerTask ι} {response : Bytes}
    (hr : s.responseOf hd = some response) : s'.responseOf hd = some response := by
  unfold Net.responseOf at hr ⊢
  split at hr
  · rename_i hresult
    rw [h.result _ _ _ hresult]
    exact hr
  · cases hr

theorem Sent.later {m : Packet ι} (h : Sent s m) (hs : Later s s') : Sent s' m := by
  cases h with
  | request p rid hp htag hframe => exact .request p rid (hs.posted p hp) htag hframe
  | response hd hh hr hrequester htag =>
      exact .response hd (hs.handlers hd hh) (hs.responseOf hr) hrequester htag

theorem Later.of_nodes (hnodes : s'.nodes = s.nodes) (hposted : ∀ p ∈ s.posted, p ∈ s'.posted)
    (hhandlers : s'.handlers = s.handlers) (hwire : ∀ m ∈ s.wire, m ∈ s'.wire) :
    Later s s' where
  posted := hposted
  handlers _ hh := hhandlers ▸ hh
  wire := hwire
  job _ _ _ hjob := hnodes ▸ hjob
  result _ _ _ hv := hnodes ▸ hv

theorem Matched.taken_later (h : Matched s) (hs : Later s s') {hd : ServerTask ι}
    (hh : hd ∈ s.handlers) : isRequestTag hd.tag = true ∧
      (⟨hd.node, hd.tag, hd.data⟩ : Packet ι) ∈ s'.wire ∧
      (s'.nodes hd.node).job hd.thread =
        some (.inr (.handleInboundRequest hd.data hd.wired)) := by
  obtain ⟨htag, hwire, hjob⟩ := h.taken hd hh
  exact ⟨htag, hs.wire _ hwire, hs.job _ _ _ hjob⟩

variable [DecidableEq ι]

theorem Later.of_step {i : ι} {l : Label (svc i).machine} {e : Event (svc i).machine}
    {c : Config (svc i).machine} (hstep : (s.nodes i).step l = some (e, c))
    (hnodes : s'.nodes = Function.update s.nodes i c) (hposted : s'.posted = s.posted)
    (hhandlers : ∀ h ∈ s.handlers, h ∈ s'.handlers) (hwire : s'.wire = s.wire) : Later s s' where
  posted _ hp := hposted ▸ hp
  handlers := hhandlers
  wire _ hm := hwire ▸ hm
  job j t job hjob := by
    rw [hnodes]
    by_cases hji : j = i
    · subst hji
      rw [Function.update_self]
      exact Config.job_of_step hstep hjob
    · rw [Function.update_of_ne hji]
      exact hjob
  result j t v hv := by
    rw [hnodes]
    by_cases hji : j = i
    · subst hji
      rw [Function.update_self]
      exact Config.result_of_step hstep hv
    · rw [Function.update_of_ne hji]
      exact hv

theorem Matched.send (h : Matched s) {i j : ι} {t : Nat} {req : PeerRequest} {data : Bytes}
    {rid : Option RequestId} (hframe : frameOf svc i req rid = .ok data) :
    Matched (s.send i t j req data) := by
  have hlater : Later s (s.send i t j req data) :=
    .of_nodes rfl (fun _ hp => List.mem_cons_of_mem _ hp) rfl
      fun _ hm => List.mem_cons_of_mem _ hm
  -- a number that was given out is below the counter, and the new one is the counter
  have hfresh (p : Posted ι) (hp : p ∈ s.posted) (hnode : p.node = i) : p.id < s.reqId i :=
    hnode ▸ h.counted p hp
  refine ⟨?_, ?_, ?_, fun hd hh => h.taken_later hlater hh⟩
  · intro p hp
    rcases List.mem_cons.mp hp with rfl | hp
    · simp only [Net.send, Function.update_self]
      omega
    · by_cases hnode : p.node = i
      · have hlt := hfresh p hp hnode
        simp only [Net.send, hnode, Function.update_self]
        omega
      · simp only [Net.send, Function.update_of_ne hnode]
        exact h.counted p hp
  · intro p hp q hq hnode hid
    rcases List.mem_cons.mp hp with rfl | hp
    · rcases List.mem_cons.mp hq with rfl | hq
      · rfl
      · exact absurd hid (hfresh q hq hnode.symm).ne'
    · rcases List.mem_cons.mp hq with rfl | hq
      · exact absurd hid (hfresh p hp hnode).ne
      · exact h.unique p hp q hq hnode hid
  · intro m hm
    rcases List.mem_cons.mp hm with rfl | hm
    · exact .request ⟨i, t, s.reqId i, req⟩ rid List.mem_cons_self rfl hframe
    · exact (h.sent m hm).later hlater

theorem Matched.receive (h : Matched s) {m : Packet ι} (hm : m ∈ s.wire)
    (htag : isRequestTag m.tag = true) {wired : Bool} {e : Event (svc m.dest).machine}
    {c : Config (svc m.dest).machine}
    (hstep : (s.nodes m.dest).step (.start (.inr (.handleInboundRequest m.data wired))) =
      some (e, c)) :
    Matched { s with
      nodes := Function.update s.nodes m.dest c
      handlers := ⟨m.dest, (s.nodes m.dest).threads.length, m.tag, m.data, wired⟩ ::
        s.handlers } := by
  have hlater : Later s { s with
      nodes := Function.update s.nodes m.dest c
      handlers := ⟨m.dest, (s.nodes m.dest).threads.length, m.tag, m.data, wired⟩ ::
        s.handlers } :=
    .of_step hstep rfl rfl (fun _ hh => List.mem_cons_of_mem _ hh) rfl
  refine ⟨h.counted, h.unique, fun m' hm' => (h.sent m' hm').later hlater, ?_⟩
  intro hd hh
  rcases List.mem_cons.mp hh with rfl | hh
  · refine ⟨htag, hm, ?_⟩
    simp only [Function.update_self]
    exact (Config.start_spec hstep).2
  · exact h.taken_later hlater hh

theorem Matched.step (h : Matched s) {l : Step svc} (hs : s.step l = some s') : Matched s' := by
  cases l with
  | node i l =>
      obtain ⟨⟨e, c⟩, hstep, rfl⟩ := Option.map_eq_some_iff.mp hs
      have hlater : Later s { s with nodes := Function.update s.nodes i c } :=
        .of_step hstep rfl rfl (fun _ hh => hh) rfl
      exact ⟨h.counted, h.unique, fun m hm => (h.sent m hm).later hlater,
        fun hd hh => h.taken_later hlater hh⟩
  | send i t j rid =>
      simp only [Net.step] at hs
      split at hs
      · cases hs
      · split at hs
        · cases hs
        · split at hs
          · rename_i hframe
            cases hs
            exact h.send hframe
          · cases hs
  | receive n wired =>
      simp only [Net.step] at hs
      split at hs
      · cases hs
      · rename_i m hm
        split at hs
        · rename_i htag
          obtain ⟨⟨e, c⟩, hstep, rfl⟩ := Option.map_eq_some_iff.mp hs
          exact h.receive (List.mem_of_getElem? hm) htag hstep
        · cases hs
  | respond n k =>
      simp only [Net.step] at hs
      split at hs
      · cases hs
      · rename_i hd hh
        split at hs
        · cases hs
        · rename_i response hr
          split at hs
          · rename_i hrequester
            cases hs
            have hlater : Later s { s with wire := ⟨k, replyTag hd.tag, response⟩ :: s.wire } :=
              .of_nodes rfl (fun _ hp => hp) rfl fun _ hm => List.mem_cons_of_mem _ hm
            refine ⟨h.counted, h.unique, ?_, fun hd hh => h.taken_later hlater hh⟩
            intro m hm
            rcases List.mem_cons.mp hm with rfl | hm
            · exact .response hd (List.mem_of_getElem? hh) hr hrequester rfl
            · exact (h.sent m hm).later hlater
          · cases hs

theorem matched_run {G : Net svc → Step svc → Prop} (hrun : Run Net.step G (.new svc) s) :
    Matched s :=
  hrun.inv (fun _ _ _ h _ hs => h.step hs) .new

/-- The handler was started for the request that the receive was posted for, and made the
response. -/
structure Answers (s : Net svc) (p : Posted ι) (response : Bytes) (h : ServerTask ι) : Prop where
  handler : h ∈ s.handlers
  job : (s.nodes h.node).job h.thread = some (.inr (.handleInboundRequest h.data h.wired))
  response : s.responseOf h = some response
  request : ∃ rid, decodeRequest (svc h.node).utf8Error h.data =
    .ok ⟨⟨p.req.key, .ofNat p.req.length, (svc p.node).cfg.meId⟩, .ofNat p.req.waitMs, rid⟩

omit [DecidableEq ι] in
theorem requesterOf_frame {p : Posted ι} {rid : Option RequestId} {data : Bytes} {i : ι}
    (hframe : frameOf svc p.node p.req rid = .ok data) (hoffset : p.req.key.offset < 2 ^ 64) :
    decodeRequest (svc i).utf8Error data =
      .ok ⟨⟨p.req.key, .ofNat p.req.length, (svc p.node).cfg.meId⟩, .ofNat p.req.waitMs,
        ridText rid⟩ := by
  refine (decodeRequest_encodeRequest (svc i).utf8Error p.req.key hoffset (.ofNat p.req.length)
    (svc p.node).cfg.meId (.ofNat p.req.waitMs) (ridText rid)).1 data hframe ?_
  cases rid with
  | none => exact .inl rfl
  | some rid => exact .inr ⟨rid, rfl⟩

omit [DecidableEq ι] in
theorem Matched.answers (h : Matched s)
    (hdistinct : Function.Injective fun i => (svc i).cfg.meId) (hids : ∀ i, s.reqId i ≤ 2 ^ 48)
    (hoffsets : ∀ p ∈ s.posted, p.req.key.offset < 2 ^ 64) {p : Posted ι} (hp : p ∈ s.posted)
    {m : Packet ι} (hm : m ∈ s.wire) (hdest : m.dest = p.node) (htag : m.tag = respTag p.id) :
    ∃ hd, Answers s p m.data hd := by
  have hsmall (q : Posted ι) (hq : q ∈ s.posted) : q.id < 2 ^ 48 :=
    Nat.lt_of_lt_of_le (h.counted q hq) (hids q.node)
  cases h.sent m hm with
  | request q rid hq hqtag _ =>
      exact absurd (hqtag.symm.trans htag) (reqTag_ne_respTag (hsmall q hq) (hsmall p hp))
  | response hd hh hr hrequester hreply =>
      obtain ⟨hclass, hpacket, hjob⟩ := h.taken hd hh
      cases h.sent _ hpacket with
      | response hd' _ _ _ hreply' =>
          rw [show hd.tag = replyTag hd'.tag from hreply', isRequestTag_replyTag] at hclass
          cases hclass
      | request q rid hq hqtag hframe =>
          have hdecoded := requesterOf_frame (i := hd.node) hframe (hoffsets q hq)
          have hnode : q.node = p.node := by
            rw [requesterOf, hdecoded] at hrequester
            exact hdistinct ((Option.some.inj hrequester).trans
              (congrArg (fun i => (svc i).cfg.meId) hdest))
          have hid : q.id = p.id := by
            apply respTag_injective (hsmall q hq) (hsmall p hp)
            rw [← replyTag_reqTag (hsmall q hq), ← htag, hreply,
              show hd.tag = reqTag q.id from hqtag]
          have hsame := h.unique q hq p hp hnode hid
          subst hsame
          exact ⟨hd, hh, hjob, hr, _, hdecoded⟩

/-- Among nodes with different ids, as long as no process has counted beyond the number of a
tag, a message under the tag that a client waits for is the response that some handler made
to exactly that client's request. -/
theorem response_is_own (hdistinct : Function.Injective fun i => (svc i).cfg.meId)
    {G : Net svc → Step svc → Prop} (hrun : Run Net.step G (.new svc) s)
    (hids : ∀ i, s.reqId i ≤ 2 ^ 48) (hoffsets : ∀ p ∈ s.posted, p.req.key.offset < 2 ^ 64)
    {p : Posted ι} (hp : p ∈ s.posted) {m : Packet ι} (hm : m ∈ s.wire) (hdest : m.dest = p.node)
    (htag : m.tag = respTag p.id) : ∃ hd, Answers s p m.data hd :=
  (matched_run hrun).answers hdistinct hids hoffsets hp hm hdest htag

/-! ### Two nodes -/

/-- The first node has the chunk, the second one asks for it. -/
def sampleServices (i : Bool) : RdmaService where
  cfg := { sampleConfig with
    meId := if i then "a" else "b"
    rdma := true
    base64Decode := fun s => some (utf8 s) }
  utf8Error _ := ""

def sampleTurns (i : Bool) (t n : Nat) : List (Step sampleServices) :=
  List.replicate n (.node i (.run t Node.Choice.benign))

/-- A chunk is pushed to the first node, and the second one gets to the point where it asks
for that chunk. -/
def sampleAsk : List (Step sampleServices) :=
  let members := { Node.Choice.benign with
    fetch := { Node.Choice.benign.fetch with alive := [⟨"a", "", some "x"⟩] } }
  [.node true (.start (.inl (.insertReceivedChunk (sampleKey 0) [1, 2, 3, 4])))] ++
    sampleTurns true 0 3 ++ sampleTurns true 1 1 ++ sampleTurns true 2 7 ++ sampleTurns true 1 6 ++
    [.node false (.start (.inl (.fetchRange sampleMount "b" 0 4 4)))] ++
    sampleTurns false 0 1 ++ sampleTurns false 1 3 ++ sampleTurns false 2 3 ++
    sampleTurns false 1 4 ++ sampleTurns false 3 3 ++ sampleTurns false 1 2 ++
    [.node false (.run 1 members)] ++ sampleTurns false 1 1

/-- The request, the handler and its response. -/
def sampleExchange : List (Step sampleServices) :=
  [.send false 1 true none, .receive 0 true] ++ sampleTurns true 3 1 ++ sampleTurns true 4 7 ++
    sampleTurns true 3 2 ++ [.respond 0 false]

theorem response_is_own_of_two :
    ∃ s : Net sampleServices, Run Net.step (fun _ _ => True) (.new sampleServices) s ∧
      ∃ p ∈ s.posted, ∃ m ∈ s.wire, m.dest = p.node ∧ m.tag = respTag p.id ∧
        ∃ hd, Answers s p m.data hd := by
  obtain ⟨s, hrun, hs⟩ := run_of_labels Net.step (.new sampleServices)
    (sampleAsk ++ sampleExchange)
    (fun s => decide (s.reqId true ≤ 2 ^ 48) && decide (s.reqId false ≤ 2 ^ 48) &&
      s.posted.all (fun p => decide (p.req.key.offset < 2 ^ 64)) &&
      s.posted.any fun p => s.wire.any fun m =>
        decide (m.dest = p.node) && decide (m.tag = respTag p.id))
    (by decide +kernel)
  simp only [Bool.and_eq_true, decide_eq_true_eq, List.all_eq_true, List.any_eq_true] at hs
  obtain ⟨⟨⟨hfirst, hsecond⟩, hoffsets⟩, p, hp, m, hm, hdest, htag⟩ := hs
  have hdistinct : Function.Injective fun i => (sampleServices i).cfg.meId := by decide
  have hids (i : Bool) : s.reqId i ≤ 2 ^ 48 := by
    cases i with
    | false => exact hsecond
    | true => exact hfirst
  exact ⟨s, hrun, p, hp, m, hm, hdest, htag,
    response_is_own hdistinct hrun hids hoffsets hp hm hdest htag⟩

end Net

end BlobCache.Ucx
