import BlobCache.Data.Cursor
import BlobCache.Fetcher.State

/-!
The chunk request of the UCX transport: `encode_request`, `decode_request` and
the readers below them.

The frame grew twice. After the fields it always had come `wait_ms` and then
the request id, and a frame of an older sender ends before the one or the
other. `decode_request` tells the three generations apart by the number of
bytes that are left.
-/

namespace BlobCache.Ucx

/-- The fields of the first generation. -/
structure CoreFields where
  key : ChunkKey
  length : UInt32
  requesterPeerId : String
  deriving DecidableEq

structure ChunkRequest extends CoreFields where
  waitMs : UInt32
  requestId : String
  deriving DecidableEq

/-- The characters of a request id. -/
def ridChar (c : Char) : Bool := c.isAlphanum || c == '-'

/-- A request id as `RequestId::from_header` lets it through. -/
structure RequestId where
  value : String
  nonempty : value ≠ ""
  short : (utf8 value).length ≤ 128
  chars : value.toList.all ridChar = true

def magic : Nat := 0xBC10C001

def encodeRequest (key : ChunkKey) (length : UInt32) (requesterPeerId : String)
    (waitMs : UInt32) (requestId : String) : Except BcError Bytes :=
  let mount := utf8 key.mount
  let blob := utf8 key.blob
  let requester := utf8 requesterPeerId
  let rid := utf8 requestId
  if 255 < mount.length then .error (.peer "mount name too long")
  else if 65535 < blob.length then .error (.peer "blob name too long")
  else if 65535 < requester.length then .error (.peer "requester peer id too long")
  else if 128 < rid.length then .error (.peer "request id too long")
  else
    .ok (beBytes 4 magic ++ ([UInt8.ofNat mount.length] ++ (mount ++
      (beBytes 2 blob.length ++ (blob ++ (beBytes 8 key.offset ++ (beBytes 4 length.toNat ++
      (beBytes 2 requester.length ++ (requester ++ (beBytes 4 waitMs.toNat ++
      (beBytes 2 rid.length ++ rid)))))))))))

/-! ## The readers -/

abbrev ByteReader := Reader UInt8 BcError

def unexpectedEnd : BcError := .peer "unexpected end of request"

def readU8 : ByteReader UInt8 := fun data idx =>
  if data.length ≤ idx then .fail unexpectedEnd else Reader.item data idx

def readSlice (len : Nat) : ByteReader Bytes := fun data idx =>
  if data.length - idx < len then .fail unexpectedEnd else Reader.items len data idx

def readBe (n : Nat) : ByteReader Nat := do
  let bytes ← readSlice n
  return ofBeBytes bytes

def readBeU16 : ByteReader Nat := readBe 2

def readBeU32 : ByteReader UInt32 := do
  let n ← readBe 4
  return UInt32.ofNat n

def readBeU64 : ByteReader Nat := readBe 8

/-- `utf8Error` is the text of the error of `String::from_utf8`. -/
def readUtf8 (utf8Error : Bytes → String) (len : Nat) (field : String) : ByteReader String := do
  let bytes ← readSlice len
  Reader.ofOption (ofUtf8? bytes) (.peer s!"{field} utf8: {utf8Error bytes}")

variable (utf8Error : Bytes → String)

/-- `mount` with its length in one byte. -/
def readMount : ByteReader String := do
  let mountLen ← readU8
  readUtf8 utf8Error mountLen.toNat "mount"

/-- A string with its length in two bytes: `blob` and `requester_peer_id`. -/
def readField (field : String) : ByteReader String := do
  let len ← readBeU16
  readUtf8 utf8Error len field

def readCore : ByteReader CoreFields := do
  let word ← readBeU32
  if word.toNat ≠ magic then
    Reader.fail (.peer s!"bad magic 0x{hex (beBytes 4 word.toNat)}")
  else
    let mount ← readMount utf8Error
    let blob ← readField utf8Error "blob"
    let offset ← readBeU64
    let length ← readBeU32
    let requesterPeerId ← readField utf8Error "requester_peer_id"
    return ⟨⟨mount, blob, offset⟩, length, requesterPeerId⟩

def readWaitMs : ByteReader UInt32 := fun data idx =>
  if idx + 4 ≤ data.length then readBeU32 data idx else .ok (0, idx)

def readRid : ByteReader String := do
  let n ← readBeU16
  if 128 < n then Reader.fail (.peer "request id too long")
  else
    let s ← readUtf8 utf8Error n "request_id"
    if ¬s.toList.all ridChar then Reader.fail (.peer "request id has invalid chars")
    else return s

def readRequestId : ByteReader String := fun data idx =>
  if idx + 2 ≤ data.length then readRid utf8Error data idx else .ok ("", idx)

def finish : ByteReader Unit := fun data idx =>
  if idx ≠ data.length then .fail (.peer "trailing bytes in request") else .ok ((), idx)

/-- What `decode_request` does after the fields of the first generation. -/
def readSuffix : ByteReader (UInt32 × String) := do
  let waitMs ← readWaitMs
  let requestId ← readRequestId utf8Error
  finish
  return (waitMs, requestId)

def decodeRequest (data : Bytes) : Outcome BcError ChunkRequest :=
  (readCore utf8Error data 0).bind fun core =>
    (readSuffix utf8Error data core.2).bind fun suffix =>
      .ok { core.1 with waitMs := suffix.1.1, requestId := suffix.1.2 }

/-! ## What the readers accept -/

theorem readU8_accepts : Accepts readU8 fun v s => s = [v] where
  sound pre rest v j hrun := by
    cases rest with
    | nil => simp [readU8] at hrun
    | cons a t =>
        rw [readU8, if_neg (by simp), Reader.item_run] at hrun
        cases hrun
        exact ⟨[v], t, rfl, by simp, rfl⟩
  complete pre s t v hs := by
    subst hs
    rw [readU8, if_neg (by simp), List.singleton_append, Reader.item_run]
    simp
  safe pre rest := by
    cases rest with
    | nil => simp [readU8]
    | cons a t =>
        rw [readU8, if_neg (by simp), Reader.item_run]
        simp

theorem readSlice_run (pre s t : Bytes) :
    readSlice s.length (pre ++ (s ++ t)) pre.length = .ok (s, (pre ++ s).length) := by
  have hlen : ¬(pre ++ (s ++ t)).length - pre.length < s.length := by
    simp only [List.length_append]
    omega
  rw [readSlice, if_neg hlen, Reader.items_run, List.length_append]

theorem readSlice_short {len : Nat} {pre rest : Bytes} (h : rest.length < len) :
    readSlice len (pre ++ rest) pre.length = .fail unexpectedEnd := by
  have hlen : (pre ++ rest).length - pre.length < len := by
    simp only [List.length_append]
    omega
  rw [readSlice, if_pos hlen]

theorem readSlice_enough {len : Nat} (pre : Bytes) {rest : Bytes} (h : len ≤ rest.length) :
    readSlice len (pre ++ rest) pre.length = .ok (rest.take len, (pre ++ rest.take len).length) := by
  have hread := readSlice_run pre (rest.take len) (rest.drop len)
  rw [List.take_append_drop, List.length_take, Nat.min_eq_left h] at hread
  exact hread

theorem readSlice_accepts (len : Nat) :
    Accepts (readSlice len) fun b s => b = s ∧ s.length = len where
  sound pre rest b j hrun := by
    by_cases hshort : rest.length < len
    · rw [readSlice_short hshort] at hrun
      cases hrun
    · have hlen : len ≤ rest.length := Nat.le_of_not_lt hshort
      rw [readSlice_enough pre hlen] at hrun
      cases hrun
      refine ⟨rest.take len, rest.drop len, (List.take_append_drop len rest).symm, rfl, rfl, ?_⟩
      rw [List.length_take]
      exact Nat.min_eq_left hlen
  complete pre s t b h := by
    obtain ⟨rfl, rfl⟩ := h
    exact readSlice_run pre b t
  safe pre rest := by
    by_cases hshort : rest.length < len
    · rw [readSlice_short hshort]
      simp
    · rw [readSlice_enough pre (Nat.le_of_not_lt hshort)]
      simp

theorem readBe_accepts (n : Nat) :
    Accepts (readBe n) fun v s => v < 256 ^ n ∧ s = beBytes n v := by
  apply ((readSlice_accepts n).bind fun bytes => .pure (ofBeBytes bytes)).congr
  intro v s
  constructor
  · rintro ⟨b, s1, s2, rfl, ⟨rfl, rfl⟩, rfl, rfl⟩
    rw [List.append_nil]
    exact ⟨ofBeBytes_lt b, (beBytes_ofBeBytes b).symm⟩
  · rintro ⟨hv, rfl⟩
    exact ⟨_, _, [], (List.append_nil _).symm, ⟨rfl, beBytes_length n v⟩,
      (ofBeBytes_beBytes n hv).symm, rfl⟩

theorem readBeU32_accepts : Accepts readBeU32 fun v s => s = beBytes 4 v.toNat := by
  apply ((readBe_accepts 4).bind fun n => .pure (UInt32.ofNat n)).congr
  intro v s
  constructor
  · rintro ⟨n, s1, s2, rfl, ⟨hn, rfl⟩, rfl, rfl⟩
    rw [List.append_nil, UInt32.toNat_ofNat_of_lt' hn]
  · rintro rfl
    exact ⟨v.toNat, _, [], (List.append_nil _).symm, ⟨v.toNat_lt, rfl⟩, by simp, rfl⟩

theorem readUtf8_accepts (len : Nat) (field : String) :
    Accepts (readUtf8 utf8Error len field) fun v s => s = utf8 v ∧ s.length = len := by
  apply ((readSlice_accepts len).bind fun bytes => .ofOption (ofUtf8? bytes) _).congr
  intro v s
  constructor
  · rintro ⟨b, s1, s2, rfl, ⟨rfl, hlen⟩, hv, rfl⟩
    rw [List.append_nil]
    exact ⟨(ofUtf8?_eq_some.mp hv).symm, hlen⟩
  · rintro ⟨rfl, hlen⟩
    exact ⟨_, _, [], (List.append_nil _).symm, ⟨rfl, hlen⟩, ofUtf8?_eq_some.mpr rfl, rfl⟩

def mountBytes (mount : String) : Bytes := [UInt8.ofNat (utf8 mount).length] ++ utf8 mount

def fieldBytes (v : String) : Bytes := beBytes 2 (utf8 v).length ++ utf8 v

theorem readMount_accepts :
    Accepts (readMount utf8Error) fun v s => (utf8 v).length < 256 ∧ s = mountBytes v := by
  apply (readU8_accepts.bind fun n => readUtf8_accepts utf8Error n.toNat "mount").congr
  intro v s
  constructor
  · rintro ⟨n, _, _, rfl, rfl, rfl, hlen⟩
    rw [mountBytes, hlen, UInt8.ofNat_toNat]
    exact ⟨n.toNat_lt, rfl⟩
  · rintro ⟨hlen, rfl⟩
    exact ⟨_, _, _, rfl, rfl, rfl, (UInt8.toNat_ofNat_of_lt' hlen).symm⟩

theorem readField_accepts (field : String) :
    Accepts (readField utf8Error field)
      fun v s => (utf8 v).length < 65536 ∧ s = fieldBytes v := by
  apply ((readBe_accepts 2).bind fun n => readUtf8_accepts utf8Error n field).congr
  intro v s
  constructor
  · rintro ⟨n, _, _, rfl, ⟨hn, rfl⟩, rfl, rfl⟩
    exact ⟨hn, rfl⟩
  · rintro ⟨hlen, rfl⟩
    exact ⟨_, _, _, rfl, ⟨hlen, rfl⟩, rfl, rfl⟩

/-- The lengths and the offset have the width that the frame gives them. -/
structure CoreFields.Fits (c : CoreFields) : Prop where
  mount : (utf8 c.key.mount).length < 256
  blob : (utf8 c.key.blob).length < 65536
  offset : c.key.offset < 2 ^ 64
  requester : (utf8 c.requesterPeerId).length < 65536

/-- The frame of the first generation. -/
def CoreFields.frame (c : CoreFields) : Bytes :=
  beBytes 4 magic ++ (mountBytes c.key.mount ++ (fieldBytes c.key.blob ++
    (beBytes 8 c.key.offset ++ (beBytes 4 c.length.toNat ++ fieldBytes c.requesterPeerId))))

theorem readCore_accepts :
    Accepts (readCore utf8Error) fun c s => c.Fits ∧ s = c.frame := by
  apply (readBeU32_accepts.bind fun word => .check (c := word.toNat ≠ magic) _
    ((readMount_accepts utf8Error).bind fun mount =>
    (readField_accepts utf8Error "blob").bind fun blob =>
    (readBe_accepts 8).bind fun offset => readBeU32_accepts.bind fun length =>
    (readField_accepts utf8Error "requester_peer_id").bind fun requester =>
    .pure (CoreFields.mk ⟨mount, blob, offset⟩ length requester))).congr
  intro c s
  constructor
  · rintro ⟨word, _, _, rfl, rfl, hword, mount, _, _, rfl, ⟨hmount, rfl⟩, blob, _, _, rfl,
      ⟨hblob, rfl⟩, offset, _, _, rfl, ⟨hoffset, rfl⟩, length, _, _, rfl, rfl, requester,
      _, _, rfl, ⟨hrequester, rfl⟩, rfl, rfl⟩
    refine ⟨⟨hmount, hblob, hoffset, hrequester⟩, ?_⟩
    rw [CoreFields.frame, not_not.mp hword, List.append_nil]
  · rintro ⟨⟨hmount, hblob, hoffset, hrequester⟩, rfl⟩
    have hword : (UInt32.ofNat magic).toNat = magic := by decide
    exact ⟨UInt32.ofNat magic, _, _, rfl, by rw [hword], not_not.mpr hword, c.key.mount, _, _,
      rfl, ⟨hmount, rfl⟩, c.key.blob, _, _, rfl, ⟨hblob, rfl⟩, c.key.offset, _, _, rfl,
      ⟨hoffset, rfl⟩, c.length, _, _, rfl, rfl, c.requesterPeerId, _, [],
      (List.append_nil _).symm, ⟨hrequester, rfl⟩, rfl, rfl⟩

/-- The request id that the frame can carry. -/
structure ValidRid (rid : String) : Prop where
  short : (utf8 rid).length ≤ 128
  chars : rid.toList.all ridChar = true

theorem readRid_accepts :
    Accepts (readRid utf8Error) fun rid s => ValidRid rid ∧ s = fieldBytes rid := by
  apply ((readBe_accepts 2).bind fun n => .check (c := 128 < n) _
    ((readUtf8_accepts utf8Error n "request_id").bind fun rid =>
      .check (c := ¬rid.toList.all ridChar) _ (.pure rid))).congr
  intro rid s
  constructor
  · rintro ⟨n, _, _, rfl, ⟨_, rfl⟩, hn, rid, _, _, rfl, ⟨rfl, rfl⟩, hchars, rfl, rfl⟩
    rw [List.append_nil]
    exact ⟨⟨not_lt.mp hn, not_not.mp hchars⟩, rfl⟩
  · rintro ⟨⟨hshort, hchars⟩, rfl⟩
    exact ⟨_, _, _, rfl, ⟨by omega, rfl⟩, not_lt.mpr hshort, rid, _, [],
      (List.append_nil _).symm, ⟨rfl, rfl⟩, not_not.mpr hchars, rfl, rfl⟩

end BlobCache.Ucx
