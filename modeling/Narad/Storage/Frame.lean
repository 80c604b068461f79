import Narad.Lib.Bytes

/-!
# The segment frame format

A segment file is a run of frames. A frame is a 27-byte header and a payload: the magic, the codec
flags, the record count, the base offset, the uncompressed and compressed payload sizes and a
CRC-32C over everything after the magic. The payload, after decompression, is the records, each
behind its length.

The zstd codec is a parameter: any pair of functions that decodes what it encoded. Offsets and
positions are natural numbers; header fields are the signed integers the code reads them as.
Error texts are left out, error kinds are kept.
-/

namespace Narad.Storage

open Lib

/-- The ways reading or building a frame fails. -/
inductive FrameError where
  | unexpectedEOF
  | badMagic
  | corrupt
  | corruptRecord
  | emptyBatch
  | tooLarge
  deriving DecidableEq

/-- A compressor: decoding, with the uncompressed size as a hint, undoes encoding. -/
structure Zstd where
  encode : Bytes → Bytes
  decode : Bytes → ℕ → Option Bytes
  decode_encode : ∀ b, decode (encode b) b.length = some b
  encode_ne_nil : ∀ b, b ≠ [] → encode b ≠ []

/-- The least compressor there is: it marks its output and compresses nothing. -/
def Zstd.stored : Zstd :=
  ⟨(0 :: ·), fun b _ => some b.tail, fun _ => rfl, fun _ _ => List.cons_ne_nil _ _⟩

/-- The codec a log writes its frames with. -/
inductive Codec where
  | none
  | zstd

def magicByte0 : UInt8 := 0xCA
def magicByte1 : UInt8 := 0xFE
def headerSize : ℕ := 27
def codecMask : UInt8 := 7
def maxFrameBytes : ℕ := 256 * 1024 * 1024
def castagnoli : UInt32 := 0x82f63b78

/-- The codec's 3-bit identity in the frame flags. -/
def Codec.flag : Codec → UInt8
  | .none => 0
  | .zstd => 1

variable (z : Zstd)

/-- The stored form of a record stream. -/
def Codec.encode : Codec → Bytes → Bytes
  | .none, b => b
  | .zstd, b => z.encode b

structure FrameHeader where
  flags : UInt8
  recordCount : ℤ
  baseOffset : ℤ
  uncompressed : ℤ
  compressed : ℤ
  crc : UInt32

/-- The codec bits of the flags. -/
def FrameHeader.codec (h : FrameHeader) : UInt8 :=
  h.flags &&& codecMask

/-- The fields between the magic and the checksum. -/
def headerFields (h : FrameHeader) : Bytes :=
  h.flags :: (bigEndian 4 (unsigned 32 h.recordCount) ++ (bigEndian 8 (unsigned 64 h.baseOffset) ++
    (bigEndian 4 (unsigned 32 h.uncompressed) ++ bigEndian 4 (unsigned 32 h.compressed))))

def encodeHeader (h : FrameHeader) : Bytes :=
  magicByte0 :: magicByte1 :: (headerFields h ++ bigEndian 4 h.crc.toNat)

/-- The header at the front of `buf`, if it starts with the magic and its fields are in range. -/
def decodeHeader (buf : Bytes) : Except FrameError FrameHeader :=
  if buf.length < headerSize then .error .corruptRecord
  else if buf[0]? ≠ some magicByte0 ∨ buf[1]? ≠ some magicByte1 then .error .badMagic
  else
    let h : FrameHeader :=
      { flags := buf.getD 2 0
        recordCount := signed 32 (fromBigEndian (readAt buf 3 4))
        baseOffset := signed 64 (fromBigEndian (readAt buf 7 8))
        uncompressed := signed 32 (fromBigEndian (readAt buf 15 4))
        compressed := signed 32 (fromBigEndian (readAt buf 19 4))
        crc := UInt32.ofNat (fromBigEndian (readAt buf 23 4)) }
    if h.recordCount ≤ 0 ∨ h.uncompressed ≤ 0 ∨ h.compressed ≤ 0 ∨ h.baseOffset < 0 then
      .error .corruptRecord
    else if (maxFrameBytes : ℤ) < h.compressed ∨ (maxFrameBytes : ℤ) < h.uncompressed then
      .error .corruptRecord
    else .ok h

/-- Records, each behind its big-endian length. -/
def encodeRecordsPayload (records : List Bytes) : Bytes :=
  records.flatMap fun r => bigEndian 4 r.length ++ r

/-- Split a record stream into exactly the counted records, with no trailing bytes. -/
def decodeRecordsPayload : ℕ → Bytes → Except FrameError (List Bytes)
  | 0, payload => if payload.isEmpty then .ok [] else .error .corruptRecord
  | n + 1, payload =>
    if payload.length < 4 then .error .corruptRecord
    else
      let len := fromBigEndian (payload.take 4)
      let rest := payload.drop 4
      if rest.length < len then .error .corruptRecord
      else (decodeRecordsPayload n (rest.drop len)).map (rest.take len :: ·)

def crc32cOf (p : Bytes) : UInt32 :=
  crcUpdate castagnoli 0 p

/-- The encoded size of a record stream. -/
def innerSize (records : List Bytes) : ℕ :=
  (records.map fun r => 4 + r.length).sum

/-- The header of a frame before its checksum is filled in. -/
def headerFor (c : Codec) (records : List Bytes) (baseOffset compressed : ℕ) : FrameHeader :=
  { flags := c.flag &&& codecMask
    recordCount := records.length
    baseOffset := baseOffset
    uncompressed := innerSize records
    compressed := compressed
    crc := 0 }

def encodeFrame (c : Codec) (records : List Bytes) (baseOffset : ℕ) : Except FrameError Bytes :=
  if records.isEmpty then .error .emptyBatch
  else
    let payload := c.encode z (encodeRecordsPayload records)
    if maxFrameBytes < innerSize records ∨ maxFrameBytes < payload.length then .error .tooLarge
    else
      let h := headerFor c records baseOffset payload.length
      .ok (encodeHeader { h with crc := crc32cOf (headerFields h ++ payload) } ++ payload)

variable (file : Bytes)

/-- Header and end position of the frame at `pos`: no payload read and no checksum. -/
def frameHeaderAt (pos : ℕ) : Except FrameError (FrameHeader × ℕ) :=
  let hdr := readAt file pos headerSize
  if hdr.length < headerSize then .error .unexpectedEOF
  else do
    let h ← decodeHeader hdr
    return (h, pos + headerSize + h.compressed.toNat)

/-- Header and raw payload of the frame at `pos`, checksum verified. -/
def readFrameRaw (pos : ℕ) : Except FrameError (FrameHeader × Bytes) :=
  let hdr := readAt file pos headerSize
  if hdr.length < headerSize then .error .unexpectedEOF
  else do
    let h ← decodeHeader hdr
    let payload := readAt file (pos + headerSize) h.compressed.toNat
    if payload.length < h.compressed.toNat then .error .unexpectedEOF
    else if h.crc ≠ crc32cOf (readAt hdr 2 21 ++ payload) then .error .corrupt
    else return (h, payload)

/-- The decoder of a frame with the given codec bits. -/
def decodeForFlag (flag : UInt8) (payload : Bytes) (uncompressed : ℕ) : Except FrameError Bytes :=
  if flag = Codec.none.flag then .ok payload
  else if flag = Codec.zstd.flag then
    match z.decode payload uncompressed with
    | some decoded => .ok decoded
    | none => .error .corrupt
  else .error .corruptRecord

/-- Header, records and end position of the frame at `pos`, checked and decoded. -/
def readFrameAt (pos : ℕ) : Except FrameError (FrameHeader × List Bytes × ℕ) := do
  let (h, payload) ← readFrameRaw file pos
  let decoded ← decodeForFlag z h.codec payload h.uncompressed.toNat
  if decoded.length ≠ h.uncompressed.toNat then .error .corrupt
  else
    match decodeRecordsPayload h.recordCount.toNat decoded with
    | .error _ => .error .corrupt
    | .ok records => .ok (h, records, pos + headerSize + h.compressed.toNat)

/-- The read granularity of `verifyFrameAtBuffered`. -/
def verifyChunkBytes : ℕ := 64 * 1024

/-- Hash `remaining` payload bytes at `at_` onto `crc`, one chunk at a time. -/
def verifyChunks (file : Bytes) : ℕ → ℕ → ℕ → UInt32 → Except FrameError UInt32
  | 0, _, _, crc => .ok crc
  | fuel + 1, remaining, at_, crc =>
    if remaining = 0 then .ok crc
    else
      let want := min remaining verifyChunkBytes
      let chunk := readAt file at_ want
      if chunk.length < want then .error .unexpectedEOF
      else verifyChunks file fuel (remaining - want) (at_ + want) (crcUpdate castagnoli crc chunk)

/-- Header and end position of the frame at `pos`, its checksum verified in bounded reads. -/
def verifyFrameAtBuffered (pos : ℕ) : Except FrameError (FrameHeader × ℕ) :=
  let hdr := readAt file pos headerSize
  if hdr.length < headerSize then .error .unexpectedEOF
  else do
    let h ← decodeHeader hdr
    let size := h.compressed.toNat
    let crc ← verifyChunks file (size / verifyChunkBytes + 1) size (pos + headerSize)
      (crcUpdate castagnoli 0 (readAt hdr 2 21))
    if h.crc ≠ crc then .error .corrupt
    else return (h, pos + headerSize + size)

end Narad.Storage
