import NyxDb.Lib.Framing
import NyxDb.Replication.Messages
import NyxDb.Storage.Table

/-!
# Frames on the wire

A frame starts with its length, its type and the number of a query.  The length counts the header
too.  A receiver waits until it has as many bytes as the length says, and gives the handler of the
frame a pointer behind the header and the length without the header.  Nothing asks that the length
is at least that of a header: below, the difference is one of 64-bit numbers, and the pointer may
be read behind the frame and behind the buffer.
-/

namespace NyxDb.Server

open Replication (frameHeaderSize)
open List

/-! ## Types of frames -/

/-- The type of a frame; every byte is one. -/
structure FrameType where
  code : UInt8
  deriving DecidableEq, Repr

namespace FrameType

def authReq : FrameType := ⟨0x01⟩
def authOk : FrameType := ⟨0x02⟩
def authErr : FrameType := ⟨0x03⟩
def query : FrameType := ⟨0x10⟩
def resultMeta : FrameType := ⟨0x11⟩
def resultCol : FrameType := ⟨0x12⟩
def resultEnd : FrameType := ⟨0x13⟩
def queryErr : FrameType := ⟨0x14⟩
def replHello : FrameType := ⟨0x20⟩
def replForwardWrite : FrameType := ⟨0x40⟩
def replForwardResp : FrameType := ⟨0x41⟩
def notifyLeader : FrameType := ⟨0x50⟩
def registerNode : FrameType := ⟨0x51⟩

/-- The types from the first one of replication on. -/
def isRepl (type : FrameType) : Bool :=
  replHello.code ≤ type.code

end FrameType

/-! ## Headers -/

structure FrameHeader where
  length : Nat
  type : FrameType
  queryId : Nat
  deriving DecidableEq, Repr

def encodeHeader (type : FrameType) (queryId payloadLen : Nat) : Bytes :=
  leBytes 4 (frameHeaderSize + payloadLen) ++ (type.code :: leBytes 4 queryId)

def decodeHeader (data : Bytes) : Option FrameHeader :=
  if data.length < frameHeaderSize then none
  else some
    { length := leNat (data.take 4)
      type := ⟨data.getD 4 0⟩
      queryId := leNat ((data.drop 5).take 4) }

/-- The header of the first frame of a buffer, once the frame is there as a whole. -/
def nextHeader (buf : Bytes) : Option FrameHeader :=
  match decodeHeader buf with
  | none => none
  | some hdr => if buf.length < hdr.length then none else some hdr

@[simp] theorem length_encodeHeader (type : FrameType) (queryId n : Nat) :
    (encodeHeader type queryId n).length = frameHeaderSize := by
  simp [encodeHeader, frameHeaderSize]

theorem decodeHeader_eq_none {data : Bytes} :
    decodeHeader data = none ↔ data.length < frameHeaderSize := by
  unfold decodeHeader
  split <;> simp_all

/-- A header is read back, its numbers as numbers of 32 bits. -/
theorem decodeHeader_encodeHeader (type : FrameType) (queryId n : Nat) (rest : Bytes) :
    decodeHeader (encodeHeader type queryId n ++ rest) =
      some ⟨(frameHeaderSize + n) % 2 ^ 32, type, queryId % 2 ^ 32⟩ := by
  have hlen : ¬ (encodeHeader type queryId n ++ rest).length < frameHeaderSize := by
    rw [length_append, length_encodeHeader]
    omega
  rw [decodeHeader, if_neg hlen]
  simp only [encodeHeader, append_assoc, cons_append]
  have htake : (leBytes 4 (frameHeaderSize + n) ++ type.code :: (leBytes 4 queryId ++ rest)).take 4
      = leBytes 4 (frameHeaderSize + n) := by
    rw [take_append_of_le_length (by simp), take_of_length_le (by simp)]
  have hget : (leBytes 4 (frameHeaderSize + n) ++ type.code :: (leBytes 4 queryId ++ rest)).getD 4 0
      = type.code := by
    simp
  have hdrop : ((leBytes 4 (frameHeaderSize + n) ++
      type.code :: (leBytes 4 queryId ++ rest)).drop 5).take 4 = leBytes 4 queryId := by
    rw [drop_append, drop_eq_nil_of_le (by simp), length_leBytes, nil_append,
      show 5 - 4 = 1 from rfl, drop_one, tail_cons,
      take_append_of_le_length (by simp), take_of_length_le (by simp)]
  rw [htake, hget, hdrop, leNat_leBytes, leNat_leBytes, show 256 ^ 4 = 2 ^ 32 from rfl]

variable {hdr : FrameHeader} {buf : Bytes}

/-- Later bytes do not change a header. -/
theorem decodeHeader_append {data : Bytes} (h : decodeHeader data = some hdr) (more : Bytes) :
    decodeHeader (data ++ more) = some hdr := by
  have hlen : ¬ data.length < frameHeaderSize := by
    intro hlt
    rw [decodeHeader_eq_none.mpr hlt] at h
    cases h
  have hnine : frameHeaderSize = 9 := rfl
  rw [decodeHeader, if_neg hlen] at h
  rw [decodeHeader, if_neg (by rw [length_append]; omega), ← h,
    take_append_of_le_length (by omega), drop_append_of_le_length (by omega),
    take_append_of_le_length (by rw [length_drop]; omega),
    getD_append _ _ _ _ (by omega)]

theorem nextHeader_eq_some :
    nextHeader buf = some hdr ↔ decodeHeader buf = some hdr ∧ hdr.length ≤ buf.length := by
  unfold nextHeader
  cases decodeHeader buf with
  | none => simp
  | some h =>
    simp only [Option.some.injEq]
    split
    · constructor
      · intro hcontra
        cases hcontra
      · rintro ⟨rfl, _⟩
        omega
    · rw [Option.some.injEq]
      constructor
      · rintro rfl
        exact ⟨rfl, by omega⟩
      · exact fun h => h.1

theorem nextHeader_append (h : nextHeader buf = some hdr) (more : Bytes) :
    nextHeader (buf ++ more) = some hdr := by
  rw [nextHeader_eq_some] at h ⊢
  constructor
  · exact decodeHeader_append h.1 more
  · rw [length_append]
    omega

theorem nextHeader_length (h : nextHeader buf = some hdr) : frameHeaderSize ≤ buf.length := by
  by_contra hlt
  rw [nextHeader_eq_some, decodeHeader_eq_none.mpr (by omega)] at h
  cases h.1

/-! ## Payloads -/

/-- What a handler gets: a pointer to the first byte behind the header, and a length. -/
structure Payload where
  byteAt : Nat → UInt8
  len : Nat

namespace Payload

/-- The bytes from an offset on; the length is not asked. -/
def slice (p : Payload) (off n : Nat) : Bytes :=
  (range n).map fun i => p.byteAt (off + i)

def u16 (p : Payload) (off : Nat) : Nat :=
  leNat (p.slice off 2)

def u64 (p : Payload) (off : Nat) : Nat :=
  leNat (p.slice off 8)

/-- All bytes the length says are there. -/
def bytes (p : Payload) : Bytes :=
  p.slice 0 p.len

/-- The payload is these bytes, whatever stands behind them. -/
structure Shows (p : Payload) (bs : Bytes) : Prop where
  len_eq : p.len = bs.length
  byteAt_eq : ∀ i < bs.length, p.byteAt i = bs.getD i 0

@[simp] theorem length_slice (p : Payload) (off n : Nat) : (p.slice off n).length = n := by
  simp [slice]

theorem Shows.slice_eq {p : Payload} {bs : Bytes} (h : p.Shows bs) {off n : Nat}
    (hle : off + n ≤ bs.length) : p.slice off n = (bs.drop off).take n := by
  apply ext_getElem
  · rw [length_slice, length_take, length_drop]
    omega
  · intro i hi hi'
    rw [length_slice] at hi
    have hlt : off + i < bs.length := by omega
    simp only [slice, getElem_map, getElem_range, getElem_take, getElem_drop, h.byteAt_eq _ hlt]
    exact getD_eq_getElem _ _ hlt

theorem Shows.bytes_eq {p : Payload} {bs : Bytes} (h : p.Shows bs) : p.bytes = bs := by
  rw [bytes, h.slice_eq (by rw [h.len_eq]; omega), drop_zero, h.len_eq, take_length]

end Payload

/-- The payload of the frame at the front of a buffer; `past` is what the memory behind the buffer
holds. -/
def received (buf : Bytes) (past : Nat → UInt8) (hdr : FrameHeader) : Payload where
  byteAt i :=
    if frameHeaderSize + i < buf.length then buf.getD (frameHeaderSize + i) 0
    else past (frameHeaderSize + i - buf.length)
  len := subU64 hdr.length frameHeaderSize

/-! ## The frames of a stream -/

/-- A frame as it came in. -/
structure RawFrame where
  header : FrameHeader
  bytes : Bytes
  deriving DecidableEq, Repr

/-- What is behind the header. -/
def RawFrame.payload (f : RawFrame) : Bytes :=
  f.bytes.drop frameHeaderSize

/-- The first frame of a buffer.  A frame of no bytes is not one: taking it off changes nothing. -/
def cutFrame (buf : Bytes) : Option (RawFrame × Bytes) :=
  match nextHeader buf with
  | none => none
  | some hdr =>
    if hdr.length = 0 then none
    else some (⟨hdr, buf.take hdr.length⟩, buf.drop hdr.length)

theorem cutFrame_of_none (h : nextHeader buf = none) : cutFrame buf = none := by
  rw [cutFrame, h]

theorem cutFrame_of_zero (h : nextHeader buf = some hdr) (hzero : hdr.length = 0) :
    cutFrame buf = none := by
  rw [cutFrame, h]
  exact if_pos hzero

theorem cutFrame_of_some (h : nextHeader buf = some hdr) (hpos : hdr.length ≠ 0) :
    cutFrame buf = some (⟨hdr, buf.take hdr.length⟩, buf.drop hdr.length) := by
  rw [cutFrame, h]
  exact if_neg hpos

theorem cutFrame_eq_some {rest : Bytes} {f : RawFrame} (h : cutFrame buf = some (f, rest)) :
    nextHeader buf = some f.header ∧ f.header.length ≠ 0 ∧
      f.bytes = buf.take f.header.length ∧ rest = buf.drop f.header.length := by
  cases hnext : nextHeader buf with
  | none =>
    rw [cutFrame_of_none hnext] at h
    cases h
  | some hdr =>
    by_cases hzero : hdr.length = 0
    · rw [cutFrame_of_zero hnext hzero] at h
      cases h
    · rw [cutFrame_of_some hnext hzero] at h
      obtain ⟨rfl, rfl⟩ := h
      exact ⟨rfl, hzero, rfl, rfl⟩

theorem cuts_cutFrame : Framing.Cuts cutFrame where
  shrinks := by
    intro buf f rest h
    obtain ⟨hnext, hpos, -, rfl⟩ := cutFrame_eq_some h
    have hlen := nextHeader_length hnext
    have hnine : frameHeaderSize = 9 := rfl
    rw [length_drop]
    omega
  keeps := by
    intro buf f rest h more
    obtain ⟨hnext, hpos, hbytes, rfl⟩ := cutFrame_eq_some h
    have hle := (nextHeader_eq_some.mp hnext).2
    rw [cutFrame_of_some (nextHeader_append hnext more) hpos, take_append_of_le_length hle,
      drop_append_of_le_length hle, ← hbytes]

/-- The complete frames of a stream, and what is left. -/
abbrev framesOf (bs : Bytes) : List RawFrame × Bytes :=
  Framing.frames cutFrame bs

theorem framesOf_append (bs more : Bytes) :
    framesOf (bs ++ more) = ((framesOf bs).1 ++ (framesOf ((framesOf bs).2 ++ more)).1,
      (framesOf ((framesOf bs).2 ++ more)).2) :=
  cuts_cutFrame.frames_append bs more

/-- A frame that is not shorter than a header holds its payload. -/
theorem received_shows (h : nextHeader buf = some hdr) (hlen : frameHeaderSize ≤ hdr.length)
    (past : Nat → UInt8) :
    (received buf past hdr).Shows (RawFrame.payload ⟨hdr, buf.take hdr.length⟩) := by
  have hle := (nextHeader_eq_some.mp h).2
  have hbytes : (RawFrame.payload ⟨hdr, buf.take hdr.length⟩).length =
      hdr.length - frameHeaderSize := by
    rw [RawFrame.payload, length_drop, length_take]
    omega
  constructor
  · rw [hbytes]
    exact if_pos hlen
  · intro i hi
    have hlt : frameHeaderSize + i < buf.length := by omega
    have hread : (received buf past hdr).byteAt i = buf.getD (frameHeaderSize + i) 0 := if_pos hlt
    rw [hread, RawFrame.payload, getD_eq_getElem?_getD, getD_eq_getElem?_getD,
      getElem?_drop, getElem?_take_of_lt (by omega)]

/-! ## Sending -/

def frameBytes (type : FrameType) (queryId : Nat) (payload : Bytes) : Bytes :=
  encodeHeader type queryId payload.length ++ payload

/-- The transport takes the number of bytes as a number of 32 bits. -/
def streamSend (buf : Bytes) : Bytes :=
  buf.take (buf.length % 2 ^ 32)

variable (type : FrameType)

variable (queryId : Nat)

theorem length_frameBytes (payload : Bytes) :
    (frameBytes type queryId payload).length = frameHeaderSize + payload.length := by
  rw [frameBytes, length_append, length_encodeHeader]

/-- A frame that is cut by the transport is received with the header of the shorter one, if that is
still a header. -/
theorem framesOf_streamSend_append {payload : Bytes}
    (h : frameHeaderSize ≤ (frameHeaderSize + payload.length) % 2 ^ 32) (rest : Bytes) :
    framesOf (streamSend (frameBytes type queryId payload) ++ rest) =
      (⟨⟨(frameHeaderSize + payload.length) % 2 ^ 32, type, queryId % 2 ^ 32⟩,
          streamSend (frameBytes type queryId payload)⟩ :: (framesOf rest).1,
            (framesOf rest).2) := by
  have hnine : frameHeaderSize = 9 := rfl
  have hlen : (streamSend (frameBytes type queryId payload)).length =
      (frameHeaderSize + payload.length) % 2 ^ 32 := by
    rw [streamSend, length_take, length_frameBytes]
    omega
  have hdecode : decodeHeader (streamSend (frameBytes type queryId payload)) =
      some ⟨(frameHeaderSize + payload.length) % 2 ^ 32, type, queryId % 2 ^ 32⟩ := by
    rw [streamSend, length_frameBytes, frameBytes, take_append,
      take_of_length_le (by rw [length_encodeHeader]; omega), decodeHeader_encodeHeader]
  have hnext : nextHeader (streamSend (frameBytes type queryId payload)) =
      some ⟨(frameHeaderSize + payload.length) % 2 ^ 32, type, queryId % 2 ^ 32⟩ := by
    rw [nextHeader_eq_some]
    exact ⟨hdecode, hlen.ge⟩
  have hcut := cutFrame_of_some (nextHeader_append hnext rest)
    (show (frameHeaderSize + payload.length) % 2 ^ 32 ≠ 0 by omega)
  rw [show framesOf _ = _ from cuts_cutFrame.frames_of_some hcut]
  simp only [← hlen, take_left, drop_left]

/-- What is behind the header of a frame as it is received. -/
theorem payload_streamSend (payload : Bytes) (hdr : FrameHeader) :
    RawFrame.payload ⟨hdr, streamSend (frameBytes type queryId payload)⟩ =
      payload.take ((frameHeaderSize + payload.length) % 2 ^ 32 - frameHeaderSize) := by
  rw [RawFrame.payload, streamSend, length_frameBytes, frameBytes, drop_take,
    drop_append_of_le_length (by rw [length_encodeHeader]), drop_of_length_le
    (by rw [length_encodeHeader]), nil_append]

end NyxDb.Server
