import BlobCache.Sharing.Prefixes
import BlobCache.Ucx.Tags

/-!
Nodes that serve each other over UCX. The server reads a chunk straight into the tail of its
response, as many bytes as the index gives for it, or asks the chunk provider. Its response
reaches the client under a tag, together with everything else that is sent to that worker.

What a peer answers is not assumed to be right: it was made by a node out of what it had, and
that came from the origin or from an answer before it.
-/

namespace BlobCache.Sharing.Rdma

open Node Cache Conc Ucx Ucx.Inbound Ucx.Net

/-! ## What the server answers -/

section Server

variable {cfg : NodeConfig} {utf8Error : Bytes → String} {env : Env cfg} {l : Loc}

/-- The old job in whose name a job of the server runs. -/
def hostOf (utf8Error : Bytes → String) : Inbound.Job → Node.Job
  | .readFrame key _ => .tryGet key
  | .handleInboundRequest data _ =>
      match decodeRequest utf8Error data with
      | .ok request => .servePeerChunk request.key request.length.toNat request.waitMs.toNat
      | _ => .reconcileWithDisk

/-- A frame with a good value for the chunk that is not longer than what was asked for. -/
def FrameOk (env : Env cfg) (key : ChunkKey) (reqLen : Nat) (buf : Bytes) : Prop :=
  ∃ b, buf = handFrame b.length b ∧ b.length ≤ reqLen ∧ env.good key b

/-- A client takes nothing but a good value out of the response. -/
def ResponseOk (env : Env cfg) (key : ChunkKey) (response : Bytes) : Prop :=
  ∀ n d, decodeResponse response n = .ok d → env.good key d

def handledOk (env : Env cfg) (utf8Error : Bytes → String) : Inbound.Job → Inbound.Val → Prop
  | .readFrame key reqLen, .frame r => ∀ buf n, r = some (buf, n) → FrameOk env key reqLen buf
  | .handleInboundRequest data _, .handled out =>
      ∀ request response, decodeRequest utf8Error data = .ok request →
        out = .ok (some response) → ResponseOk env request.key response
  | _, _ => False

def guests (env : Env cfg) (utf8Error : Bytes → String) :
    (discipline env).Guests Inbound.effect where
  host := hostOf utf8Error
  post j v _ := handledOk env utf8Error j v
  external j := by
    cases j with
    | readFrame key reqLen => rfl
    | handleInboundRequest data wired =>
        unfold hostOf
        dsimp only
        split <;> rfl

theorem responseOk_of_frame {key : ChunkKey} {reqLen : Nat} {buf : Bytes}
    (hmax : reqLen ≤ maxResponseBytes) (h : FrameOk env key reqLen buf) :
    ResponseOk env key buf := by
  obtain ⟨b, rfl, hle, hgood⟩ := h
  intro n d hd
  rw [((decodeResponse_ok_iff (hle.trans hmax) d).mp hd).1]
  exact hgood

theorem responseOk_of_reply {status : Nat} (hstatus : status = statusMiss ∨ status = statusErr)
    {key : ChunkKey} {response : Bytes} (h : reply status = .ok (some response)) :
    ResponseOk env key response := by
  obtain ⟨response', hreply, henc⟩ := reply_ok status
  cases hreply.symm.trans h
  rw [encodeResponse_of_le (Nat.zero_le _)] at henc
  cases henc
  intro n d hd
  rcases hstatus with rfl | rfl
  · rw [decodeResponse_frame (by decide) (Nat.zero_le _)] at hd
    cases hd
  · rw [decodeResponse_frame (by decide) (Nat.zero_le _)] at hd
    cases hd

/-- The beginning of a good value is good. -/
def Closed (env : Env cfg) : Prop :=
  ∀ k n b, env.partOf k 0 n b → env.good k b ∧ b.length = n

theorem readFrame_spec (hclosed : Closed env) {key : ChunkKey} {reqLen : Nat}
    (hfile : l.file = .idle) (hkey : key ∈ env.keys) :
    Spec env l (readFrame key reqLen) fun r _ =>
      ∀ buf n, r = some (buf, n) → FrameOk env key reqLen buf := by
  unfold readFrame
  refine Spec.disk_bind trivial fun size _ => ?_
  cases size with
  | none => exact Spec.pure fun buf n h => by cases h
  | some size =>
      dsimp only
      split
      · exact Spec.pure fun buf n h => by cases h
      · rename_i hfits
        refine (tryGetIntoSlice_spec hfile hkey).bind ?_
        rintro r l' ⟨-, hr⟩
        cases r with
        | none => exact Spec.pure fun buf n h => by cases h
        | some filled =>
            obtain ⟨m, payload⟩ := filled
            obtain ⟨-, hpart⟩ := hr m payload rfl
            obtain ⟨hgood, hlen⟩ := hclosed _ _ _ hpart
            refine Spec.pure ?_
            intro buf n h
            cases h
            exact ⟨payload, by rw [hlen], by omega, hgood⟩

theorem askProvider_sat {request : ChunkRequest} (hnet : env.net)
    (hkey : request.key ∈ env.keys)
    (hjob : l.job = .servePeerChunk request.key request.length.toNat request.waitMs.toNat)
    (hquiet : l.Quiet) (wired : Bool) :
    (askProvider cfg request wired).Sat
      ((discipline env).withGuests (guests env utf8Error) (server cfg utf8Error)) l
      fun r _ => ∀ b, r = some b → env.good request.key b := by
  unfold askProvider
  split
  · refine Program.Sat.mono (servePeerChunk_spec hnet hkey hjob hquiet).lift ?_
    rintro r l' ⟨-, hr⟩ b rfl
    exact hr.1
  · exact fun b hb => by cases hb

theorem respond_sat {request : ChunkRequest} (hnet : env.net) (hkey : request.key ∈ env.keys)
    (hjob : l.job = .servePeerChunk request.key request.length.toNat request.waitMs.toNat)
    (hquiet : l.Quiet) (hmax : request.length.toNat ≤ maxResponseBytes) (wired : Bool) :
    (respond cfg request wired).Sat
      ((discipline env).withGuests (guests env utf8Error) (server cfg utf8Error)) l
      fun out _ => ∀ response, out = .ok (some response) →
        ResponseOk env request.key response := by
  refine Program.Sat.call_bind hkey trivial ?_
  intro t r hr
  cases r with
  | none => exact fun response h => responseOk_of_reply (.inr rfl) h
  | some v =>
      obtain ⟨lc, hpost⟩ := hr v rfl
      cases v with
      | inl v => cases hpost
      | inr v =>
          cases v with
          | handled out => cases hpost
          | frame r =>
              cases r with
              | some frame =>
                  obtain ⟨buf, n⟩ := frame
                  intro response h
                  cases h
                  exact responseOk_of_frame hmax (hpost buf n rfl)
              | none =>
                  refine (askProvider_sat hnet hkey hjob hquiet wired).bind ?_
                  intro b l' hb
                  cases b with
                  | none => exact fun response h => responseOk_of_reply (.inl rfl) h
                  | some b =>
                      dsimp only
                      split
                      · exact fun response h => responseOk_of_reply (.inl rfl) h
                      · rename_i hfits
                        intro response h
                        cases h
                        exact responseOk_of_frame hmax ⟨b, rfl, by omega, hb b rfl⟩

theorem hostOf_request {data : Bytes} {wired : Bool} {request : ChunkRequest}
    (hrequest : decodeRequest utf8Error data = .ok request) :
    hostOf utf8Error (.handleInboundRequest data wired) =
      .servePeerChunk request.key request.length.toNat request.waitMs.toNat := by
  unfold hostOf
  dsimp only
  rw [hrequest]

theorem handle_sat (hnet : env.net) (data : Bytes) (wired : Bool)
    (hok : env.jobOk (hostOf utf8Error (.handleInboundRequest data wired))) :
    (handleInboundRequest cfg utf8Error data wired).Sat
      ((discipline env).withGuests (guests env utf8Error) (server cfg utf8Error))
      { job := hostOf utf8Error (.handleInboundRequest data wired) }
      fun out _ => handledOk env utf8Error (.handleInboundRequest data wired) (.handled out) := by
  unfold handleInboundRequest
  split
  · exact fun request response _ h => by cases h
  · exact fun request response _ h => by cases h
  · rename_i request hrequest
    rw [hostOf_request hrequest] at hok ⊢
    split
    · exact fun request response _ h => by cases h
    · rename_i hlength
      refine (respond_sat hnet hok.2 rfl (.init _) (by omega) wired).mono ?_
      intro out l' hout request' response hrequest' h
      cases hrequest.symm.trans hrequest'
      exact hout response h

theorem body_sat (hnet : env.net) (hclosed : Closed env) (j : Inbound.Job)
    (hok : env.jobOk ((guests env utf8Error).host j)) :
    ((server cfg utf8Error).body j).Sat
      ((discipline env).withGuests (guests env utf8Error) (server cfg utf8Error))
      ((discipline env).init ((guests env utf8Error).host j)) ((guests env utf8Error).post j) := by
  cases j with
  | readFrame key reqLen =>
      have hread : Spec env { job := .tryGet key } (readFrame key reqLen) fun r _ =>
          ∀ buf n, r = some (buf, n) → FrameOk env key reqLen buf :=
        readFrame_spec hclosed rfl hok
      exact Program.Sat.bind hread.lift fun _ _ hr => hr
  | handleInboundRequest data wired =>
      exact Program.Sat.bind (handle_sat hnet data wired hok) fun _ _ hr => hr

end Server

/-! ## The cluster -/

section Runs

variable {ι : Type} {svc : ι → RdmaService} {b : Blob}

theorem closed_envAt (h : Fits (fun i => (svc i).cfg) b) (i : ι) : Closed (envAt h i) :=
  fun _ _ _ hpart => good_of_partOf hpart

/-- The client takes `d` out of a message under the tag that it has posted a receive for. -/
def Received (s : Net svc) (i : ι) (t : Nat) (req : PeerRequest) (d : Bytes) : Prop :=
  ∃ p ∈ s.posted, p.node = i ∧ p.thread = t ∧ p.req = req ∧
    ∃ m ∈ s.wire, m.dest = i ∧ m.tag = respTag p.id ∧
      decodeResponse m.data (.ofNat req.length) = .ok d

/-- What may happen at a node. Jobs are started for keys in use and bring no foreign data, the
origin answers for the blob with a beginning of the chunk or fails, and what a peer answers came
under the tag of the request. Anything else is allowed, such as lost requests, failing disks
and lost threads. -/
def allowed (h : Fits (fun i => (svc i).cfg) b) (s : Net svc) (i : ι) :
    Event (svc i).machine → Prop
  | .start (.inl j) => (envAt h i).jobOk j
  | .start (.inr _) => False
  | .op t (.inl (.fetch (.peerFetch req))) c => ∀ d, c.fetch.peer = .ok d → Received s i t req d
  | .op _ (.inl (.fetch (.getRecv key))) c =>
      ∀ d, c.fetch.origin = .ok d → (envAt h i).good key d
  | _ => True

/-- No process counts beyond the number of a tag. -/
def runs (h : Fits (fun i => (svc i).cfg) b) (s : Net svc) (l : Step svc) : Prop :=
  (∀ i, s.reqId i ≤ 2 ^ 48) ∧
    match l with
    | .node i l => ∀ e c, (s.nodes i).step l = some (e, c) → allowed h s i e
    | _ => True

/-- What a node may rely on. -/
abbrev relies (h : Fits (fun i => (svc i).cfg) b) (i : ι) (s : Node.State)
    (e : Event (svc i).machine) : Prop :=
  (envAt h i).allowed s (e.hosted (guests (envAt h i) (svc i).utf8Error))

theorem agree_of_reach {h : Fits (fun i => (svc i).cfg) b} {i : ι}
    {c : Config (svc i).machine}
    (hreach : Config.Reach (relies h i) (.init (Node.State.new (svc i).cfg)) c) :
    ∃ ws, Agree ((discipline (envAt h i)).withGuests (guests (envAt h i) (svc i).utf8Error)
        (server (svc i).cfg (svc i).utf8Error)) c.threads ws ∧
      Core (envAt h i) c.state ws.hosted :=
  core_guests_reach (fun j hok => body_sat trivial (closed_envAt h i) j hok) hreach

/-- The state of the network in a run. -/
structure Sound (h : Fits (fun i => (svc i).cfg) b) (s : Net svc) : Prop where
  reach : ∀ i, Config.Reach (relies h i) (.init (Node.State.new (svc i).cfg)) (s.nodes i)
  matched : Matched s
  keys : ∀ p ∈ s.posted, p.req.key ∈ b.keys

variable {h : Fits (fun i => (svc i).cfg) b} {s s' : Net svc}

/-- A response under the tag of a request is good, since the node that made it had it. -/
theorem Sound.good_of_received (hs : Sound h s)
    (hdistinct : Function.Injective fun i => (svc i).cfg.meId) (hids : ∀ i, s.reqId i ≤ 2 ^ 48)
    {i : ι} {t : Nat} {req : PeerRequest} {d : Bytes} (hd : Received s i t req d) :
    (envAt h i).good req.key d := by
  obtain ⟨p, hp, rfl, -, rfl, m, hm, hdest, htag, hdecoded⟩ := hd
  have hoffsets (q : Posted ι) (hq : q ∈ s.posted) : q.req.key.offset < 2 ^ 64 :=
    h.offsets _ (hs.keys q hq)
  obtain ⟨hd, -, hjob, hresponse, rid, hrequest⟩ :=
    hs.matched.answers hdistinct hids hoffsets hp hm hdest htag
  obtain ⟨ws, hagree, -⟩ := agree_of_reach (hs.reach hd.node)
  have hdone : (s.nodes hd.node).result hd.thread =
      some (.inr (.handled (.ok (some m.data)))) := by
    unfold Net.responseOf at hresponse
    split at hresponse
    · rename_i hresult
      cases hresponse
      exact hresult
    · cases hresponse
  obtain ⟨w, -, hpost⟩ := hagree.post_of_result hjob hdone
  exact good_of_chunkSize (h.chunkSize hd.node p.node) (hpost _ _ hrequest rfl _ _ hdecoded)

theorem Sound.relies_of_allowed (hs : Sound h s)
    (hdistinct : Function.Injective fun i => (svc i).cfg.meId) (hids : ∀ i, s.reqId i ≤ 2 ^ 48)
    {i : ι} {e : Event (svc i).machine} (hg : allowed h s i e) :
    relies h i (s.nodes i).state e := by
  cases e with
  | start j =>
      cases j with
      | inl j => exact hg
      | inr j => exact hg.elim
  | op t o ch =>
      cases o with
      | inr o => exact o.elim
      | inl o =>
          cases o with
          | disk o => exact .inl trivial
          | index o => trivial
          | snapshotKeys => trivial
          | fetch o =>
              cases o with
              | peerFetch req =>
                  exact fun d hd => ⟨hs.good_of_received hdistinct hids (hg d hd), trivial⟩
              | getRecv key => exact ⟨hg, fun _ _ => trivial⟩
              | _ => trivial
  | spawn t j => cases j <;> trivial
  | join t hd =>
      obtain ⟨u, j⟩ := hd
      cases j <;> trivial
  | finish t => trivial
  | cancel t => trivial

/-- A thread asks for keys in use only. -/
theorem Sound.key_of_awaitedRequest (hs : Sound h s) {i : ι} {t : Nat} {req : PeerRequest}
    (hreq : awaitedRequest (s.nodes i) t = some req) : req.key ∈ b.keys := by
  obtain ⟨ws, hagree, -⟩ := agree_of_reach (hs.reach i)
  unfold awaitedRequest at hreq
  split at hreq
  · rename_i hth
    cases hreq
    obtain ⟨v, -, hok⟩ := hagree.thread t _ hth
    exact hok.status.1.2
  · cases hreq

/-- What a server takes for a request was sent by a client, and asks for a key in use. -/
theorem Sound.jobOk_of_packet (hs : Sound h s) {m : Packet ι} (hm : m ∈ s.wire)
    (htag : isRequestTag m.tag = true) (i : ι) (wired : Bool) :
    (envAt h i).jobOk (hostOf (svc i).utf8Error (.handleInboundRequest m.data wired)) := by
  cases hs.matched.sent m hm with
  | response hd _ _ _ hreply =>
      rw [hreply, isRequestTag_replyTag] at htag
      cases htag
  | request p rid hp _ hframe =>
      have hkey := hs.keys p hp
      rw [hostOf_request (requesterOf_frame hframe (h.offsets _ hkey))]
      exact ⟨trivial, hkey⟩

theorem Sound.new (h : Fits (fun i => (svc i).cfg) b) : Sound h (.new svc) where
  reach _ := .refl
  matched := .new
  keys _ hp := by cases hp

variable [DecidableEq ι]

theorem Sound.step (hs : Sound h s) (hdistinct : Function.Injective fun i => (svc i).cfg.meId)
    {l : Step svc} (hg : runs h s l) (hstep : s.step l = some s') : Sound h s' := by
  have hmatched := hs.matched.step hstep
  obtain ⟨hids, hg⟩ := hg
  cases l with
  | node i l =>
      obtain ⟨⟨e, c⟩, hnode, rfl⟩ := Option.map_eq_some_iff.mp hstep
      have hrelies := hs.relies_of_allowed hdistinct hids (hg e c hnode)
      exact ⟨Config.reach_update hs.reach hnode hrelies, hmatched, hs.keys⟩
  | send i t j rid =>
      simp only [Net.step] at hstep
      split at hstep
      · cases hstep
      · rename_i req hreq
        split at hstep
        · cases hstep
        · split at hstep
          · cases hstep
            refine ⟨hs.reach, hmatched, fun p hp => ?_⟩
            rcases List.mem_cons.mp hp with rfl | hp
            · exact hs.key_of_awaitedRequest hreq
            · exact hs.keys p hp
          · cases hstep
  | receive n wired =>
      simp only [Net.step] at hstep
      split at hstep
      · cases hstep
      · rename_i m hm
        split at hstep
        · rename_i htag
          obtain ⟨⟨e, c⟩, hnode, rfl⟩ := Option.map_eq_some_iff.mp hstep
          have hjob := hs.jobOk_of_packet (List.mem_of_getElem? hm) htag m.dest wired
          cases (Config.start_spec hnode).1
          exact ⟨Config.reach_update hs.reach hnode hjob, hmatched, hs.keys⟩
        · cases hstep
  | respond n k =>
      simp only [Net.step] at hstep
      split at hstep
      · cases hstep
      · split at hstep
        · cases hstep
        · split at hstep
          · cases hstep
            exact ⟨hs.reach, hmatched, hs.keys⟩
          · cases hstep

/-- Among nodes with different ids that talk over UCX, in whatever order they move and whatever
becomes of their messages, every finished read of the blob at any node returns the range of its
content, and what the nodes hold for it are beginnings of its chunks. -/
theorem rdma_cluster_reads_content (h : Fits (fun i => (svc i).cfg) b)
    (hdistinct : Function.Injective fun i => (svc i).cfg.meId)
    (hvalid : ∀ i, (svc i).cfg.chunkSizeValid = true) (hmax : b.content.length ≤ u64Max)
    (hrun : Run Net.step (runs h) (.new svc) s) (i : ι) : ReadsContent b (s.nodes i) := by
  have hs : Sound h s :=
    hrun.inv (fun _ _ _ hs hg hstep => hs.step hdistinct hg hstep) (.new h)
  obtain ⟨ws, hagree, hcore⟩ := agree_of_reach (hs.reach i)
  exact readsContent_of_core h i (hvalid i) hmax hagree hcore

end Runs

/-! ### Two nodes -/

theorem sample_fits : Fits (fun i => (sampleServices i).cfg) sampleBlob where
  chunkSize _ _ := rfl
  names _ := sampleKeys_injOn
  offsets k hk := by
    rcases hk with rfl | rfl <;> decide

/-- The second node takes the response to its request and finishes its read. -/
def sampleSchedule : List (Step sampleServices) :=
  let served := { Node.Choice.benign with
    fetch := { Node.Choice.benign.fetch with peer := .ok [1, 2, 3, 4] } }
  sampleAsk ++ sampleExchange ++ [.node false (.run 1 served)] ++ sampleTurns false 1 4 ++
    sampleTurns false 0 2

/-- The response is among the messages. -/
def sampleReceived (s : Net sampleServices) (i : Bool) (t : Nat) (req : PeerRequest)
    (d : Bytes) : Bool :=
  s.posted.any fun p => decide (p.node = i ∧ p.thread = t ∧ p.req = req) &&
    s.wire.any fun m => decide (m.dest = i ∧ m.tag = respTag p.id) &&
      match decodeResponse m.data (.ofNat req.length) with
      | .ok d' => decide (d' = d)
      | _ => false

def sampleAllowed (s : Net sampleServices) (i : Bool) : Event (sampleServices i).machine → Bool
  | .start (.inl j) => sampleJob j
  | .start (.inr _) => false
  | .op t (.inl (.fetch (.peerFetch req))) c =>
      match c.fetch.peer with
      | .ok d => sampleReceived s i t req d
      | .error _ => true
  | .op _ (.inl (.fetch (.getRecv _))) c => !c.fetch.origin.isOk
  | _ => true

def sampleGate (s : Net sampleServices) (l : Step sampleServices) : Bool :=
  decide (s.reqId false ≤ 2 ^ 48) && decide (s.reqId true ≤ 2 ^ 48) &&
    match l with
    | .node i l => ((s.nodes i).step l).all fun ec => sampleAllowed s i ec.1
    | _ => true

theorem received_of_sample {s : Net sampleServices} {i : Bool} {t : Nat} {req : PeerRequest}
    {d : Bytes} (h : sampleReceived s i t req d = true) : Received s i t req d := by
  simp only [sampleReceived, List.any_eq_true, Bool.and_eq_true, decide_eq_true_eq] at h
  obtain ⟨p, hp, ⟨hnode, hthread, hreq⟩, m, hm, ⟨hdest, htag⟩, hdecoded⟩ := h
  refine ⟨p, hp, hnode, hthread, hreq, m, hm, hdest, htag, ?_⟩
  split at hdecoded
  · rename_i d' hd'
    rw [hd', of_decide_eq_true hdecoded]
  · cases hdecoded

theorem allowed_of_sample {s : Net sampleServices} {i : Bool}
    {e : Event (sampleServices i).machine} (h : sampleAllowed s i e = true) :
    allowed sample_fits s i e := by
  cases e with
  | start j =>
      cases j with
      | inl j => exact sampleJob_ok sample_fits rfl h
      | inr j => cases h
  | op t o c =>
      cases o with
      | inr o => exact o.elim
      | inl o =>
          cases o with
          | fetch o =>
              cases o with
              | peerFetch req =>
                  intro d hd
                  simp only [sampleAllowed, hd] at h
                  exact received_of_sample h
              | getRecv key =>
                  intro d hd
                  simp only [sampleAllowed, hd] at h
                  cases h
              | _ => trivial
          | _ => trivial
  | _ => trivial

theorem runs_of_sample (s : Net sampleServices) (l : Step sampleServices)
    (h : sampleGate s l = true) : runs sample_fits s l := by
  simp only [sampleGate, Bool.and_eq_true, decide_eq_true_eq] at h
  obtain ⟨⟨hfirst, hsecond⟩, hl⟩ := h
  refine ⟨fun i => by cases i <;> assumption, ?_⟩
  cases l with
  | node i l =>
      intro e c hstep
      simp only [hstep, Option.all_some] at hl
      exact allowed_of_sample hl
  | _ => trivial

theorem rdma_cluster_reads_content_of_two :
    ∃ s, Run Net.step (runs sample_fits) (.new sampleServices) s ∧
      (s.nodes false).job 0 = some (.inl sampleRead) ∧
      (s.nodes false).result 0 = some (.inl (.fetched (.ok [1, 2, 3, 4]))) ∧
      [1, 2, 3, 4] = slice sampleBlob.content 0 (min (0 + 4) sampleBlob.content.length) := by
  obtain ⟨s, hrun, hs⟩ := run_of_replay Net.step sampleGate runs_of_sample
    (.new sampleServices) sampleSchedule
    (fun s => decide ((s.nodes false).job 0 = some (.inl sampleRead)) &&
      decide (((s.nodes false).result 0).bind Sum.getLeft? = some (.fetched (.ok [1, 2, 3, 4]))))
    (by decide +kernel)
  simp only [Bool.and_eq_true, decide_eq_true_eq] at hs
  obtain ⟨hjob, hval⟩ := hs
  obtain ⟨v, hdone, hleft⟩ := Option.bind_eq_some_iff.mp hval
  cases Sum.getLeft?_eq_some_iff.mp hleft
  have hdistinct : Function.Injective fun i => (sampleServices i).cfg.meId := by decide
  have hread := (rdma_cluster_reads_content sample_fits hdistinct
    (fun i => by cases i <;> decide) (by decide) hrun false).read
    sampleMount 0 0 4 [1, 2, 3, 4] rfl hjob hdone
  exact ⟨s, hrun, hjob, hdone, hread⟩

end BlobCache.Sharing.Rdma
