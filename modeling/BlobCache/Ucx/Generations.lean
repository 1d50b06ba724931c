import BlobCache.Ucx.Wire

/-!
Which frames `decode_request` accepts, and as what.

After the fields of the first generation the decoder looks only at how many
bytes are left. It skips `wait_ms` when there are fewer than four and then still
asks for a request id when there are two or three, so that besides the three
generations it accepts the fields of the first followed by a request id of at
most one character.
-/

namespace BlobCache.Ucx

variable (utf8Error : Bytes → String)

/-- What follows the fields of the first generation in the three generations. -/
inductive Suffix : UInt32 → String → Bytes → Prop where
  | nothing : Suffix 0 "" []
  | wait (waitMs : UInt32) : Suffix waitMs "" (beBytes 4 waitMs.toNat)
  | rid (waitMs : UInt32) {requestId : String} (hvalid : ValidRid requestId) :
      Suffix waitMs requestId (beBytes 4 waitMs.toNat ++ fieldBytes requestId)

/-- A request id without `wait_ms` before it, taken for one because fewer than
four bytes are left. -/
structure StraySuffix (waitMs : UInt32) (requestId : String) (t : Bytes) : Prop where
  wait : waitMs = 0
  valid : ValidRid requestId
  short : (utf8 requestId).length ≤ 1
  bytes : t = fieldBytes requestId

theorem fieldBytes_length (v : String) : (fieldBytes v).length = 2 + (utf8 v).length := by
  simp [fieldBytes]

theorem readWaitMs_cases {pre t : Bytes} {w : UInt32} {j : Nat}
    (h : readWaitMs (pre ++ t) pre.length = .ok (w, j)) :
    (t.length < 4 ∧ w = 0 ∧ j = pre.length) ∨
      ∃ t', t = beBytes 4 w.toNat ++ t' ∧ j = (pre ++ beBytes 4 w.toNat).length := by
  unfold readWaitMs at h
  split at h
  · obtain ⟨s, t', rfl, rfl, rfl⟩ := readBeU32_accepts.sound pre t w j h
    exact .inr ⟨t', rfl, rfl⟩
  · rename_i hshort
    rw [List.length_append] at hshort
    cases h
    exact .inl ⟨by omega, rfl, rfl⟩

theorem readRequestId_cases {pre t : Bytes} {rid : String} {j : Nat}
    (h : readRequestId utf8Error (pre ++ t) pre.length = .ok (rid, j)) :
    (t.length < 2 ∧ rid = "" ∧ j = pre.length) ∨
      ∃ t', ValidRid rid ∧ t = fieldBytes rid ++ t' ∧ j = (pre ++ fieldBytes rid).length := by
  unfold readRequestId at h
  split at h
  · obtain ⟨s, t', rfl, rfl, hvalid, rfl⟩ := (readRid_accepts utf8Error).sound pre t rid j h
    exact .inr ⟨t', hvalid, rfl, rfl⟩
  · rename_i hshort
    rw [List.length_append] at hshort
    cases h
    exact .inl ⟨by omega, rfl, rfl⟩

theorem finish_eq_ok {data : Bytes} {idx : Nat} {r : Unit × Nat} :
    finish data idx = .ok r ↔ idx = data.length ∧ r = ((), idx) := by
  unfold finish
  split
  · rename_i hne
    simp [hne]
  · rename_i heq
    rw [not_not.mp heq]
    simp [eq_comm]

/-- A cursor at the end of the data has nothing after it. -/
theorem nil_of_end {s t : Bytes} (h : s.length = (s ++ t).length) : t = [] := by
  apply List.length_eq_zero_iff.mp
  rw [List.length_append] at h
  omega

theorem readSuffix_sound {pre t : Bytes} {w : UInt32} {rid : String} {j : Nat}
    (h : readSuffix utf8Error (pre ++ t) pre.length = .ok ((w, rid), j)) :
    Suffix w rid t ∨ StraySuffix w rid t := by
  obtain ⟨⟨w', i⟩, hwait, h⟩ := Outcome.bind_eq_ok.mp h
  obtain ⟨⟨rid', i'⟩, hrid, h⟩ := Outcome.bind_eq_ok.mp h
  obtain ⟨r, hfinish, h⟩ := Outcome.bind_eq_ok.mp h
  obtain ⟨hend, -⟩ := finish_eq_ok.mp hfinish
  cases h
  change i' = _ at hend
  rcases readWaitMs_cases hwait with ⟨hshort, rfl, rfl⟩ | ⟨t', rfl, rfl⟩
  · rcases readRequestId_cases utf8Error hrid with ⟨-, rfl, rfl⟩ | ⟨t', hvalid, rfl, rfl⟩
    · obtain rfl : t = [] := nil_of_end hend
      exact .inl .nothing
    · rw [← List.append_assoc] at hend
      obtain rfl : t' = [] := nil_of_end hend
      rw [List.append_nil, fieldBytes_length] at hshort
      have hone : (utf8 rid').length ≤ 1 := by omega
      exact .inr ⟨rfl, hvalid, hone, List.append_nil _⟩
  · rw [← List.append_assoc] at hrid hend
    rcases readRequestId_cases utf8Error hrid with ⟨-, rfl, rfl⟩ | ⟨t'', hvalid, rfl, rfl⟩
    · obtain rfl : t' = [] := nil_of_end hend
      rw [List.append_nil]
      exact .inl (.wait _)
    · rw [← List.append_assoc] at hend
      obtain rfl : t'' = [] := nil_of_end hend
      rw [List.append_nil]
      exact .inl (.rid _ hvalid)

theorem readWaitMs_short {pre t : Bytes} (h : t.length < 4) :
    readWaitMs (pre ++ t) pre.length = .ok (0, pre.length) := by
  have hshort : ¬pre.length + 4 ≤ (pre ++ t).length := by
    rw [List.length_append]
    omega
  rw [readWaitMs, if_neg hshort]

theorem readWaitMs_run (pre : Bytes) (w : UInt32) (t : Bytes) :
    readWaitMs (pre ++ (beBytes 4 w.toNat ++ t)) pre.length =
      .ok (w, (pre ++ beBytes 4 w.toNat).length) := by
  have hlong : pre.length + 4 ≤ (pre ++ (beBytes 4 w.toNat ++ t)).length := by
    simp only [List.length_append, beBytes_length]
    omega
  rw [readWaitMs, if_pos hlong]
  exact readBeU32_accepts.complete pre _ t w rfl

theorem readRequestId_nil (pre : Bytes) :
    readRequestId utf8Error pre pre.length = .ok ("", pre.length) := by
  have hshort : ¬pre.length + 2 ≤ pre.length := by omega
  rw [readRequestId, if_neg hshort]

theorem readRequestId_run (pre : Bytes) {rid : String} (hvalid : ValidRid rid) :
    readRequestId utf8Error (pre ++ fieldBytes rid) pre.length =
      .ok (rid, (pre ++ fieldBytes rid).length) := by
  have hlong : pre.length + 2 ≤ (pre ++ fieldBytes rid).length := by
    rw [List.length_append, fieldBytes_length]
    omega
  have hread := (readRid_accepts utf8Error).complete pre _ [] rid ⟨hvalid, rfl⟩
  rw [List.append_nil] at hread
  rw [readRequestId, if_pos hlong, hread]

theorem readSuffix_of {data : Bytes} {idx i : Nat} {w : UInt32} {rid : String}
    (hwait : readWaitMs data idx = .ok (w, i))
    (hrid : readRequestId utf8Error data i = .ok (rid, data.length)) :
    readSuffix utf8Error data idx = .ok ((w, rid), data.length) := by
  have hend : finish data data.length = .ok ((), data.length) := finish_eq_ok.mpr ⟨rfl, rfl⟩
  simp only [readSuffix, Reader.bind_run, hwait, Outcome.bind_ok, hrid, hend, Reader.pure_run]

theorem readSuffix_complete {w : UInt32} {rid : String} {t : Bytes}
    (h : Suffix w rid t ∨ StraySuffix w rid t) (pre : Bytes) :
    readSuffix utf8Error (pre ++ t) pre.length = .ok ((w, rid), (pre ++ t).length) := by
  rcases h with h | ⟨rfl, hvalid, hshort, rfl⟩
  · cases h with
    | nothing =>
        rw [List.append_nil]
        have hwait : readWaitMs (pre ++ []) pre.length = .ok (0, pre.length) :=
          readWaitMs_short (by simp)
        rw [List.append_nil] at hwait
        exact readSuffix_of utf8Error hwait (readRequestId_nil utf8Error pre)
    | wait =>
        have hwait := readWaitMs_run pre w []
        rw [List.append_nil] at hwait
        exact readSuffix_of utf8Error hwait (readRequestId_nil utf8Error _)
    | rid _ hvalid =>
        have hwait := readWaitMs_run pre w (fieldBytes rid)
        rw [← List.append_assoc] at hwait ⊢
        exact readSuffix_of utf8Error hwait (readRequestId_run utf8Error _ hvalid)
  · have hwait : readWaitMs (pre ++ fieldBytes rid) pre.length = .ok (0, pre.length) := by
      apply readWaitMs_short
      rw [fieldBytes_length]
      omega
    exact readSuffix_of utf8Error hwait (readRequestId_run utf8Error pre hvalid)

theorem readWaitMs_safe (pre t : Bytes) : readWaitMs (pre ++ t) pre.length ≠ .crash := by
  unfold readWaitMs
  split
  · exact readBeU32_accepts.safe pre t
  · simp

theorem readRequestId_safe (pre t : Bytes) :
    readRequestId utf8Error (pre ++ t) pre.length ≠ .crash := by
  unfold readRequestId
  split
  · exact (readRid_accepts utf8Error).safe pre t
  · simp

theorem finish_safe (data : Bytes) (idx : Nat) : finish data idx ≠ .crash := by
  unfold finish
  split
  · simp
  · simp

theorem readSuffix_safe (pre t : Bytes) :
    readSuffix utf8Error (pre ++ t) pre.length ≠ .crash := by
  apply Outcome.bind_ne_crash (readWaitMs_safe pre t)
  rintro ⟨w, i⟩ hwait
  -- Where `wait_ms` ends is a place in the data again.
  have hplace : ∃ pre' t', pre ++ t = pre' ++ t' ∧ i = pre'.length := by
    rcases readWaitMs_cases hwait with ⟨-, -, rfl⟩ | ⟨t', rfl, rfl⟩
    · exact ⟨pre, t, rfl, rfl⟩
    · exact ⟨_, t', (List.append_assoc _ _ _).symm, rfl⟩
  obtain ⟨pre', t', hdata, rfl⟩ := hplace
  rw [hdata]
  apply Outcome.bind_ne_crash (readRequestId_safe utf8Error pre' t')
  rintro ⟨rid, i'⟩ -
  apply Outcome.bind_ne_crash (finish_safe _ _)
  intro r _ hpure
  cases hpure

theorem decodeRequest_ne_crash (data : Bytes) : decodeRequest utf8Error data ≠ .crash := by
  apply Outcome.bind_ne_crash ((readCore_accepts utf8Error).safe [] data)
  rintro ⟨c, i⟩ hcore
  obtain ⟨s, t, rfl, rfl, -⟩ := (readCore_accepts utf8Error).sound [] data c i hcore
  apply Outcome.bind_ne_crash (readSuffix_safe utf8Error s t)
  intro r _ hok
  cases hok

/-- What `decode_request` accepts: the fields of the first generation and a
suffix, among them the stray one. -/
theorem decodeRequest_eq_ok {data : Bytes} {r : ChunkRequest} :
    decodeRequest utf8Error data = .ok r ↔
      r.Fits ∧ ∃ t, data = r.frame ++ t ∧
        (Suffix r.waitMs r.requestId t ∨ StraySuffix r.waitMs r.requestId t) := by
  constructor
  · intro h
    obtain ⟨⟨c, i⟩, hcore, hthen⟩ := Outcome.bind_eq_ok.mp h
    obtain ⟨⟨⟨w, rid⟩, j⟩, hsuffix, hr⟩ := Outcome.bind_eq_ok.mp hthen
    obtain ⟨s, t, rfl, rfl, hfits, rfl⟩ := (readCore_accepts utf8Error).sound [] data c i hcore
    obtain rfl := Outcome.ok.inj hr
    exact ⟨hfits, t, rfl, readSuffix_sound utf8Error hsuffix⟩
  · rintro ⟨hfits, t, rfl, hsuffix⟩
    have hcore : readCore utf8Error (r.frame ++ t) 0 = .ok (r.toCoreFields, r.frame.length) :=
      (readCore_accepts utf8Error).complete [] _ t r.toCoreFields ⟨hfits, rfl⟩
    simp only [decodeRequest, hcore, Outcome.bind_ok, readSuffix_complete utf8Error hsuffix]

theorem encodeRequest_eq_ok {key : ChunkKey} {length : UInt32} {requesterPeerId : String}
    {waitMs : UInt32} {requestId : String} {frame : Bytes} :
    encodeRequest key length requesterPeerId waitMs requestId = .ok frame ↔
      ((utf8 key.mount).length < 256 ∧ (utf8 key.blob).length < 65536 ∧
        (utf8 requesterPeerId).length < 65536 ∧ (utf8 requestId).length ≤ 128) ∧
      frame = (CoreFields.mk key length requesterPeerId).frame ++
        (beBytes 4 waitMs.toNat ++ fieldBytes requestId) := by
  simp only [encodeRequest]
  constructor
  · intro h
    split_ifs at h with hmount hblob hrequester hrid
    refine ⟨⟨by omega, by omega, by omega, by omega⟩, ?_⟩
    rw [← Except.ok.inj h]
    simp only [CoreFields.frame, mountBytes, fieldBytes, List.append_assoc]
  · rintro ⟨⟨hmount, hblob, hrequester, hrid⟩, rfl⟩
    simp only [if_neg (by omega : ¬255 < (utf8 key.mount).length),
      if_neg (by omega : ¬65535 < (utf8 key.blob).length),
      if_neg (by omega : ¬65535 < (utf8 requesterPeerId).length),
      if_neg (by omega : ¬128 < (utf8 requestId).length)]
    simp only [CoreFields.frame, mountBytes, fieldBytes, List.append_assoc]

/-- An encoding that succeeds decodes to the fields it was made of, and it
fails only for a field that its length prefix cannot hold or a request id that
is too long. -/
theorem decodeRequest_encodeRequest (key : ChunkKey) (hoffset : key.offset < 2 ^ 64)
    (length : UInt32) (requesterPeerId : String) (waitMs : UInt32) (requestId : String) :
    (∀ frame, encodeRequest key length requesterPeerId waitMs requestId = .ok frame →
      (requestId = "" ∨ ∃ rid : RequestId, rid.value = requestId) →
      decodeRequest utf8Error frame =
        .ok ⟨⟨key, length, requesterPeerId⟩, waitMs, requestId⟩) ∧
    ((∃ e, encodeRequest key length requesterPeerId waitMs requestId = .error e) ↔
      255 < (utf8 key.mount).length ∨ 65535 < (utf8 key.blob).length ∨
        65535 < (utf8 requesterPeerId).length ∨ 128 < (utf8 requestId).length) := by
  constructor
  · intro frame henc hrid
    obtain ⟨⟨hmount, hblob, hrequester, hshort⟩, rfl⟩ := encodeRequest_eq_ok.mp henc
    have hvalid : ValidRid requestId := by
      rcases hrid with rfl | ⟨rid, rfl⟩
      · exact ⟨hshort, rfl⟩
      · exact ⟨rid.short, rid.chars⟩
    apply (decodeRequest_eq_ok utf8Error).mpr
    exact ⟨⟨hmount, hblob, hoffset, hrequester⟩, _, rfl, .inl (.rid waitMs hvalid)⟩
  · cases henc : encodeRequest key length requesterPeerId waitMs requestId with
    | ok frame =>
        obtain ⟨⟨hmount, hblob, hrequester, hshort⟩, -⟩ := encodeRequest_eq_ok.mp henc
        constructor
        · rintro ⟨e, he⟩
          cases he
        · omega
    | error e =>
        constructor
        · intro _
          by_contra hfit
          simp only [not_or, not_lt] at hfit
          have hframe : encodeRequest key length requesterPeerId waitMs requestId = .ok _ :=
            encodeRequest_eq_ok.mpr ⟨⟨by omega, by omega, by omega, by omega⟩, rfl⟩
          rw [henc] at hframe
          cases hframe
        · intro _
          exact ⟨e, rfl⟩

theorem decodeRequest_encodeRequest_weights :
    ∃ frame, encodeRequest ⟨"models", "weights/0.bin", 4096⟩ 1024 "node-a" 250 "abc-123" =
        .ok frame ∧
      decodeRequest (fun _ => "") frame =
        .ok ⟨⟨⟨"models", "weights/0.bin", 4096⟩, 1024, "node-a"⟩, 250, "abc-123"⟩ :=
  ⟨_, rfl, (decodeRequest_encodeRequest (fun _ => "") ⟨"models", "weights/0.bin", 4096⟩
    (by decide) 1024 "node-a" 250 "abc-123").1 _ rfl
    (.inr ⟨⟨"abc-123", by decide, by decide, by decide⟩, rfl⟩)⟩

/-- The fields of the first generation with a stray request id after them. -/
def StrayFrame (data : Bytes) : Prop :=
  ∃ (c : CoreFields) (rid : String), c.Fits ∧ ValidRid rid ∧ (utf8 rid).length ≤ 1 ∧
    data = c.frame ++ fieldBytes rid

/-- The bytes are the frame of `r` in one of the three generations. -/
def Generation (r : ChunkRequest) (data : Bytes) : Prop :=
  r.Fits ∧ ∃ t, data = r.frame ++ t ∧ Suffix r.waitMs r.requestId t

theorem Suffix.length_of {w : UInt32} {rid : String} {t : Bytes} (h : Suffix w rid t) :
    t = [] ∨ 4 ≤ t.length := by
  cases h with
  | nothing => exact .inl rfl
  | wait => exact .inr (by simp)
  | rid _ _ => exact .inr (by simp)

/-- A stray frame decodes, but is of no generation. -/
theorem StrayFrame.decodes {data : Bytes} (h : StrayFrame data) :
    ∃ r, decodeRequest utf8Error data = .ok r ∧ ¬Generation r data := by
  obtain ⟨c, rid, hfits, hvalid, hshort, rfl⟩ := h
  refine ⟨⟨c, 0, rid⟩, ?_, ?_⟩
  · exact (decodeRequest_eq_ok utf8Error).mpr
      ⟨hfits, _, rfl, .inr ⟨rfl, hvalid, hshort, rfl⟩⟩
  · rintro ⟨-, t, hdata, hsuffix⟩
    rw [← List.append_cancel_left hdata] at hsuffix
    have hlen := fieldBytes_length rid
    rcases hsuffix.length_of with hnil | hlong
    · rw [hnil, List.length_nil] at hlen
      omega
    · omega

/-- A part of a frame that decodes and is not the whole. -/
theorem decodeRequest_cut {c : CoreFields} (hfits : c.Fits) {w : UInt32} {rid : String}
    (hrid : (utf8 rid).length < 65536) {p q : Bytes} (hq : q ≠ [])
    (hcut : p ++ q = c.frame ++ (beBytes 4 w.toNat ++ fieldBytes rid)) {r : ChunkRequest}
    (hdec : decodeRequest utf8Error p = .ok r) :
    StrayFrame p ∨ p = c.frame ∨ p = c.frame ++ beBytes 4 w.toNat := by
  obtain ⟨hrfits, t, rfl, hsuffix⟩ := (decodeRequest_eq_ok utf8Error).mp hdec
  rcases hsuffix with hsuffix | ⟨-, hvalid, hshort, rfl⟩
  · rw [List.append_assoc] at hcut
    obtain ⟨-, hframe⟩ := (readCore_accepts utf8Error).unique ⟨hrfits, rfl⟩ ⟨hfits, rfl⟩ hcut
    rw [hframe] at hcut ⊢
    have hrest := List.append_cancel_left hcut
    generalize r.waitMs = w' at hsuffix
    generalize r.requestId = rid' at hsuffix
    cases hsuffix with
    | nothing => exact .inr (.inl (List.append_nil _))
    | wait =>
        have hw := (List.append_inj hrest (by simp)).1
        rw [hw]
        exact .inr (.inr rfl)
    | rid _ hvalid =>
        rw [List.append_assoc] at hrest
        have hfield := (List.append_inj hrest (by simp)).2
        have hlen : (utf8 rid').length < 65536 := by
          have := hvalid.short
          omega
        rw [← List.append_nil (fieldBytes rid)] at hfield
        obtain ⟨rfl, -⟩ := (readField_accepts utf8Error "request_id").unique
          ⟨hlen, rfl⟩ ⟨hrid, rfl⟩ hfield
        exact absurd (List.append_cancel_left hfield) hq
  · exact .inl ⟨r.toCoreFields, r.requestId, hrfits, hvalid, hshort, rfl⟩

/-- A frame cut off is rejected, unless it is cut where an older generation ends, when it is
the frame of that generation, or so that a stray request id is left. -/
theorem decodeRequest_truncated (key : ChunkKey) (hoffset : key.offset < 2 ^ 64)
    (length : UInt32) (requesterPeerId : String) (waitMs : UInt32) (requestId : String)
    (frame : Bytes)
    (henc : encodeRequest key length requesterPeerId waitMs requestId = .ok frame) :
    let core : CoreFields := ⟨key, length, requesterPeerId⟩
    (∀ cut < frame.length, (∃ e, decodeRequest utf8Error (frame.take cut) = .fail e) ↔
      cut ≠ core.frame.length ∧ cut ≠ core.frame.length + 4 ∧ ¬StrayFrame (frame.take cut)) ∧
    decodeRequest utf8Error (frame.take core.frame.length) = .ok ⟨core, 0, ""⟩ ∧
    decodeRequest utf8Error (frame.take (core.frame.length + 4)) = .ok ⟨core, waitMs, ""⟩ := by
  intro core
  obtain ⟨⟨hmount, hblob, hrequester, hshort⟩, rfl⟩ := encodeRequest_eq_ok.mp henc
  have hfits : core.Fits := ⟨hmount, hblob, hoffset, hrequester⟩
  generalize hframe : core.frame ++ (beBytes 4 waitMs.toNat ++ fieldBytes requestId) = frame
  have hfirst : decodeRequest utf8Error (frame.take core.frame.length) = .ok ⟨core, 0, ""⟩ := by
    rw [← hframe, List.take_left]
    exact (decodeRequest_eq_ok utf8Error).mpr
      ⟨hfits, [], (List.append_nil _).symm, .inl .nothing⟩
  have hsecond : decodeRequest utf8Error (frame.take (core.frame.length + 4)) =
      .ok ⟨core, waitMs, ""⟩ := by
    have hlen : (core.frame ++ beBytes 4 waitMs.toNat).length = core.frame.length + 4 := by simp
    rw [← hframe, ← List.append_assoc, ← hlen, List.take_left]
    exact (decodeRequest_eq_ok utf8Error).mpr ⟨hfits, _, rfl, .inl (.wait waitMs)⟩
  refine ⟨?_, hfirst, hsecond⟩
  intro cut hcut
  constructor
  · rintro ⟨e, hfail⟩
    refine ⟨?_, ?_, ?_⟩
    · rintro rfl
      rw [hfirst] at hfail
      cases hfail
    · rintro rfl
      rw [hsecond] at hfail
      cases hfail
    · intro hstray
      obtain ⟨r, hok, -⟩ := hstray.decodes utf8Error
      rw [hok] at hfail
      cases hfail
  · rintro ⟨hcore, hwait, hstray⟩
    have hrest : frame.drop cut ≠ [] := by
      intro hnil
      have := List.drop_eq_nil_iff.mp hnil
      omega
    have hlen : (frame.take cut).length = cut := by
      rw [List.length_take]
      omega
    cases hdec : decodeRequest utf8Error (frame.take cut) with
    | fail e => exact ⟨e, rfl⟩
    | crash => exact absurd hdec (decodeRequest_ne_crash utf8Error _)
    | ok r =>
        have hcut' : frame.take cut ++ frame.drop cut =
            core.frame ++ (beBytes 4 waitMs.toNat ++ fieldBytes requestId) := by
          rw [List.take_append_drop, hframe]
        rcases decodeRequest_cut utf8Error hfits (by omega) hrest hcut' hdec with h | h | h
        · exact absurd h hstray
        · rw [h] at hlen
          exact absurd hlen.symm hcore
        · rw [h, List.length_append, beBytes_length] at hlen
          exact absurd hlen.symm hwait

theorem decodeRequest_truncated_weights :
    ∃ frame, encodeRequest ⟨"models", "weights/0.bin", 4096⟩ 1024 "node-a" 250 "abc" =
        .ok frame ∧
      (∃ e, decodeRequest (fun _ => "") (frame.take 11) = .fail e) ∧
      decodeRequest (fun _ => "") (frame.take 46) =
        .ok ⟨⟨⟨"models", "weights/0.bin", 4096⟩, 1024, "node-a"⟩, 0, ""⟩ := by
  obtain ⟨hcut, hcore, -⟩ := decodeRequest_truncated (fun _ => "")
    ⟨"models", "weights/0.bin", 4096⟩ (by decide) 1024 "node-a" 250 "abc" _ rfl
  refine ⟨_, rfl, (hcut 11 (by decide)).mpr ⟨by decide, by decide, ?_⟩, hcore⟩
  intro hstray
  obtain ⟨r, hok, -⟩ := hstray.decodes fun _ => ""
  cases hok

/-- The frame of the test `request_decode_rejects_truncation`, cut where the
first generation ends and two bytes later, is a request without `wait_ms` and request id. -/
theorem decodeRequest_accepts_cut :
    ∃ frame, encodeRequest ⟨"models", "weights/0.bin", 4096⟩ 1024 "node-a" 250 "abc" =
        .ok frame ∧ 48 < frame.length ∧
      ∀ cut ∈ [46, 48], decodeRequest (fun _ => "") (frame.take cut) =
        .ok ⟨⟨⟨"models", "weights/0.bin", 4096⟩, 1024, "node-a"⟩, 0, ""⟩ :=
  ⟨_, rfl, by decide, by decide⟩

/-- What `decode_request` should make of the bytes. -/
structure DecodesGenerations (data : Bytes) : Prop where
  accepts : ∀ r, decodeRequest utf8Error data = .ok r ↔ Generation r data
  encodes : ∀ r : ChunkRequest, decodeRequest utf8Error data = .ok r →
    data = r.frame ++ (beBytes 4 r.waitMs.toNat ++ fieldBytes r.requestId) →
    encodeRequest r.key r.length r.requesterPeerId r.waitMs r.requestId = .ok data
  inside : decodeRequest utf8Error data ≠ .crash

theorem Suffix.rid_valid {w : UInt32} {rid : String} {t : Bytes} (h : Suffix w rid t) :
    ValidRid rid := by
  cases h with
  | nothing => exact ⟨by decide, rfl⟩
  | wait => exact ⟨by decide, rfl⟩
  | rid _ hvalid => exact hvalid

/-- `decode_request` accepts exactly the three generations, and an encoding
gives the last of them back, as long as the bytes are no stray frame. -/
theorem decodesGenerations_iff (data : Bytes) :
    DecodesGenerations utf8Error data ↔ ¬StrayFrame data := by
  constructor
  · intro hdec hstray
    obtain ⟨r, hok, hnot⟩ := hstray.decodes utf8Error
    exact hnot ((hdec.accepts r).mp hok)
  · intro hstray
    have haccepts : ∀ r, decodeRequest utf8Error data = .ok r ↔ Generation r data := by
      intro r
      rw [decodeRequest_eq_ok utf8Error]
      constructor
      · rintro ⟨hfits, t, rfl, hsuffix | ⟨-, hvalid, hshort, rfl⟩⟩
        · exact ⟨hfits, t, rfl, hsuffix⟩
        · exact absurd ⟨_, _, hfits, hvalid, hshort, rfl⟩ hstray
      · rintro ⟨hfits, t, rfl, hsuffix⟩
        exact ⟨hfits, t, rfl, .inl hsuffix⟩
    refine ⟨haccepts, ?_, decodeRequest_ne_crash utf8Error data⟩
    intro r hok hdata
    obtain ⟨hfits, t, -, hsuffix⟩ := (haccepts r).mp hok
    exact encodeRequest_eq_ok.mpr
      ⟨⟨hfits.mount, hfits.blob, hfits.requester, hsuffix.rid_valid.short⟩, hdata⟩

/-- Two zero bytes after the fields of the first generation: an empty request
id, where `wait_ms` should start. -/
theorem decodeRequest_accepts_stray :
    ∃ data r, data = (CoreFields.mk ⟨"models", "0.bin", 0⟩ 1024 "x").frame ++ [0, 0] ∧
      decodeRequest (fun _ => "") data = .ok r ∧ ¬Generation r data := by
  have hstray : StrayFrame ((CoreFields.mk ⟨"models", "0.bin", 0⟩ 1024 "x").frame ++ [0, 0]) := by
    refine ⟨⟨⟨"models", "0.bin", 0⟩, 1024, "x"⟩, "", ?_, ⟨by decide, rfl⟩, by decide, rfl⟩
    exact ⟨by decide, by decide, by decide, by decide⟩
  obtain ⟨r, hok, hnot⟩ := hstray.decodes fun _ => ""
  exact ⟨_, r, rfl, hok, hnot⟩

end BlobCache.Ucx
