import Narad.Lib.Pattern

/-!
# The write-ahead log's frame format

A record is stored as a frame: a 20-byte header (magic, payload length, sequence number and a CRC-32
of the payload, all big endian) and the payload. The checksum does not cover the header.

`readFrame` is the sequential reader at the position it has reached; `frameAt` is the probe that
recovery uses at arbitrary positions. A frame that stands in a file is read back by both.
-/

namespace Narad.Wal

open Lib List

def frameMagic : Bytes := [0x4e, 0x57, 0x41, 0x4c]

def frameHeaderSize : ℕ := 20

/-- The reversed polynomial of CRC-32 (IEEE). -/
def ieee : UInt32 := 0xedb88320

def checksumIEEE (p : Bytes) : UInt32 :=
  crcUpdate ieee 0 p

/-- The header of a record's frame. -/
def headerOf (seq : ℕ) (payload : Bytes) : Bytes :=
  frameMagic ++ (bigEndian 4 payload.length ++ (bigEndian 8 seq ++ bigEndian 4 (checksumIEEE payload).toNat))

def frameOf (seq : ℕ) (payload : Bytes) : Bytes :=
  headerOf seq payload ++ payload

/-- The ways a frame fails its checks; all of them are a corrupt frame to recovery. -/
inductive FrameError where
  | zeroHeader
  | badMagic
  | emptyFrame
  | tooLarge
  | checksum
  deriving DecidableEq

structure FrameHeader where
  seq : ℕ
  size : ℕ
  crc : UInt32

/-- The fields of a header. -/
def decodeHeader (header : Bytes) : FrameHeader where
  seq := fromBigEndian (readAt header 8 8)
  size := fromBigEndian (readAt header 4 4)
  crc := UInt32.ofNat (fromBigEndian (readAt header 16 4))

variable (file : Bytes)

/-- The header at `offset`; nothing at the end of the file, clean or truncated. -/
def readHeader (offset maxRecord : ℕ) : Except FrameError (Option FrameHeader) :=
  let header := readAt file offset frameHeaderSize
  if header.length < frameHeaderSize then .ok none
  else if header = List.replicate frameHeaderSize 0 then .error .zeroHeader
  else if header.take 4 ≠ frameMagic then .error .badMagic
  else if (decodeHeader header).size = 0 then .error .emptyFrame
  else if maxRecord < (decodeHeader header).size then .error .tooLarge
  else .ok (some (decodeHeader header))

/-- The payload behind a header, its checksum verified. -/
def readPayload (h : FrameHeader) (offset : ℕ) : Except FrameError (Option Bytes) :=
  let payload := readAt file (offset + frameHeaderSize) h.size
  if payload.length < h.size then .ok none
  else if checksumIEEE payload ≠ h.crc then .error .checksum
  else .ok (some payload)

structure Record where
  seq : ℕ
  payload : Bytes
  deriving DecidableEq

def readFrame (offset maxRecord : ℕ) : Except FrameError (Option Record) :=
  match readHeader file offset maxRecord with
  | .error e => .error e
  | .ok none => .ok none
  | .ok (some h) =>
    match readPayload file h offset with
    | .error e => .error e
    | .ok none => .ok none
    | .ok (some payload) => .ok (some ⟨h.seq, payload⟩)

/-- The header of a complete frame at `pos` that ends below `size` and passes every check. -/
def frameAt (pos size maxRecord : ℕ) : Option FrameHeader :=
  let header := readAt file pos frameHeaderSize
  let h := decodeHeader header
  if size < pos + frameHeaderSize then none
  else if header.length < frameHeaderSize then none
  else if header.take 4 ≠ frameMagic then none
  else if h.size = 0 ∨ maxRecord < h.size then none
  else if size < pos + frameHeaderSize + h.size then none
  else
    let payload := readAt file (pos + frameHeaderSize) h.size
    if payload.length < h.size then none
    else if checksumIEEE payload = h.crc then some h else none

/-- A record whose length and sequence number fit the header's fields. -/
structure Fits (maxRecord seq : ℕ) (payload : Bytes) : Prop where
  ne_nil : payload ≠ []
  le_max : payload.length ≤ maxRecord
  length_lt : payload.length < 2 ^ 32
  seq_lt : seq < 2 ^ 64

instance (maxRecord seq : ℕ) (payload : Bytes) : Decidable (Fits maxRecord seq payload) :=
  decidable_of_iff (payload ≠ [] ∧ payload.length ≤ maxRecord ∧ payload.length < 2 ^ 32 ∧ seq < 2 ^ 64)
    ⟨fun h => ⟨h.1, h.2.1, h.2.2.1, h.2.2.2⟩, fun h => ⟨h.ne_nil, h.le_max, h.length_lt, h.seq_lt⟩⟩

section

variable (seq : ℕ) (payload : Bytes)
include seq payload

@[simp] theorem headerOf_length : (headerOf seq payload).length = frameHeaderSize := by
  simp [headerOf, frameMagic, frameHeaderSize]

@[simp] theorem frameOf_length : (frameOf seq payload).length = frameHeaderSize + payload.length := by
  simp [frameOf]

theorem headerOf_take_magic : (headerOf seq payload).take 4 = frameMagic :=
  take_left' rfl

theorem headerOf_ne_zero : headerOf seq payload ≠ List.replicate frameHeaderSize 0 := by
  intro h
  have := congrArg (take 4) h
  rw [headerOf_take_magic] at this
  exact absurd this (by decide)

end

theorem decodeHeader_headerOf {seq : ℕ} {payload : Bytes} (hlen : payload.length < 2 ^ 32) (hseq : seq < 2 ^ 64) :
    decodeHeader (headerOf seq payload) = ⟨seq, payload.length, checksumIEEE payload⟩ := by
  have hsize := readAt_append_append frameMagic (bigEndian 4 payload.length)
    (bigEndian 8 seq ++ bigEndian 4 (checksumIEEE payload).toNat)
  have hseqAt := readAt_append_append (frameMagic ++ bigEndian 4 payload.length) (bigEndian 8 seq)
    (bigEndian 4 (checksumIEEE payload).toNat)
  have hcrcAt := readAt_append_append (frameMagic ++ bigEndian 4 payload.length ++ bigEndian 8 seq)
    (bigEndian 4 (checksumIEEE payload).toNat) []
  simp only [append_assoc, append_nil, length_append, bigEndian_length,
    show frameMagic.length = 4 from rfl, Nat.reduceAdd] at hsize hseqAt hcrcAt
  have hcrc : UInt32.ofNat (fromBigEndian (bigEndian 4 (checksumIEEE payload).toNat)) =
      checksumIEEE payload := by
    rw [fromBigEndian_bigEndian, Nat.mod_eq_of_lt (by simpa using (checksumIEEE payload).toNat_lt)]
    simp
  unfold decodeHeader headerOf
  rw [hsize, hseqAt, hcrcAt, hcrc, fromBigEndian_bigEndian, fromBigEndian_bigEndian,
    Nat.mod_eq_of_lt (by simpa using hseq), Nat.mod_eq_of_lt (by simpa using hlen)]

section

variable {file payload : Bytes} {pos size seq maxRecord : ℕ}

theorem readAt_header (hat : HoldsAt file pos (frameOf seq payload)) :
    readAt file pos frameHeaderSize = headerOf seq payload := by
  rw [hat.readAt_zero (by simp), frameOf]
  exact take_left' (headerOf_length seq payload)

theorem readAt_payload (hat : HoldsAt file pos (frameOf seq payload)) :
    readAt file (pos + frameHeaderSize) payload.length = payload := by
  rw [hat.readAt_add (by simp), frameOf, drop_left' (headerOf_length seq payload), take_length]

section

variable (hfits : Fits maxRecord seq payload)
include hfits

theorem readHeader_eq (hread : readAt file pos frameHeaderSize = headerOf seq payload) :
    readHeader file pos maxRecord = .ok (some ⟨seq, payload.length, checksumIEEE payload⟩) := by
  have hdecode := decodeHeader_headerOf hfits.length_lt hfits.seq_lt
  have hpos : payload.length ≠ 0 := fun h => hfits.ne_nil (length_eq_zero_iff.mp h)
  unfold readHeader
  simp only [hread, headerOf_length, lt_irrefl, if_false, headerOf_ne_zero, headerOf_take_magic, ne_eq,
    not_true_eq_false, hdecode, hpos, not_lt.mpr hfits.le_max]

/-- A frame that stands at the reader's position is read. -/
theorem readFrame_eq (hat : HoldsAt file pos (frameOf seq payload)) :
    readFrame file pos maxRecord = .ok (some ⟨seq, payload⟩) := by
  simp only [readFrame, readHeader_eq hfits (readAt_header hat), readPayload, readAt_payload hat,
    lt_irrefl, if_false, ne_eq,
    not_true_eq_false]

/-- A frame cut short by the end of the file ends the segment. -/
theorem readFrame_torn (hpre : file.drop pos <+: frameOf seq payload)
    (hshort : (file.drop pos).length < (frameOf seq payload).length) : readFrame file pos maxRecord = .ok none := by
  rw [frameOf_length, length_drop] at hshort
  by_cases hheader : (readAt file pos frameHeaderSize).length < frameHeaderSize
  · simp only [readFrame, readHeader, hheader, if_true]
  rw [readAt_length] at hheader
  have hread : readAt file pos frameHeaderSize = headerOf seq payload := by
    obtain ⟨rest, hrest⟩ := hpre
    have htake : (frameOf seq payload).take frameHeaderSize = headerOf seq payload :=
      take_left' (headerOf_length seq payload)
    rw [readAt, ← htake, ← hrest, take_append_of_le_length (by rw [length_drop]; omega)]
  have hpayload : (readAt file (pos + frameHeaderSize) payload.length).length < payload.length := by
    rw [readAt_length]
    omega
  simp only [readFrame, readHeader_eq hfits hread, readPayload, hpayload, if_true]

end

end

end Narad.Wal
