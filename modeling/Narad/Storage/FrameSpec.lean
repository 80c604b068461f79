import Narad.Storage.Frame
import Mathlib.Tactic.Linarith

/-!
# Reading back an encoded frame

`IsFrame` relates a byte string to the records and base offset it encodes. Wherever such a string
stands in a file, the header walk steps over exactly it, the streamed and the whole checksum accept
it, and the full read returns its records. These are the only facts about frame bytes the rest of
the development uses.

The converse is not claimed: bytes that pass the checksum need not have been encoded here.
-/

namespace Narad.Storage

open Lib List

variable {records : List Bytes} {bytes : Bytes} {z : Zstd} {base : ℕ}

theorem headerFields_length (h : FrameHeader) : (headerFields h).length = 21 := by
  simp [headerFields]

theorem encodeHeader_length (h : FrameHeader) : (encodeHeader h).length = headerSize := by
  simp [encodeHeader, headerFields_length, headerSize]

/-- The hashed part of a stored header is its fields. -/
theorem readAt_encodeHeader_fields (h : FrameHeader) : readAt (encodeHeader h) 2 21 = headerFields h := by
  have hread := readAt_append_append [magicByte0, magicByte1] (headerFields h) (bigEndian 4 h.crc.toNat)
  rw [headerFields_length] at hread
  exact hread

/-- The header values a frame can carry. -/
structure FrameHeader.InRange (h : FrameHeader) : Prop where
  count_pos : 0 < h.recordCount
  count_lt : h.recordCount < 2 ^ 31
  base_nonneg : 0 ≤ h.baseOffset
  base_lt : h.baseOffset < 2 ^ 63
  uncompressed_pos : 0 < h.uncompressed
  uncompressed_le : h.uncompressed ≤ maxFrameBytes
  compressed_pos : 0 < h.compressed
  compressed_le : h.compressed ≤ maxFrameBytes

/-- A nonnegative field below its sign bit survives the unsigned encoding. -/
theorem signed_fromBigEndian {w : ℕ} (hw : 0 < w) {v : ℤ} (hpos : 0 ≤ v) (hlt : v < 2 ^ (8 * w - 1)) :
    signed (8 * w) (fromBigEndian (bigEndian w (unsigned (8 * w) v))) = v := by
  obtain ⟨n, rfl⟩ := Int.eq_ofNat_of_zero_le hpos
  have hn : n < 2 ^ (8 * w - 1) := by exact_mod_cast hlt
  have hmono : 2 ^ (8 * w - 1) ≤ 2 ^ (8 * w) := Nat.pow_le_pow_right (by omega) (by omega)
  have hbase : (256 : ℕ) ^ w = 2 ^ (8 * w) := by rw [pow_mul]; norm_num
  rw [unsigned_natCast (by omega), fromBigEndian_bigEndian, hbase, Nat.mod_eq_of_lt (by omega), signed_of_lt hn]

theorem readAt_encodeHeader (h : FrameHeader) : readAt (encodeHeader h) 3 4 = bigEndian 4 (unsigned 32 h.recordCount) ∧
      readAt (encodeHeader h) 7 8 = bigEndian 8 (unsigned 64 h.baseOffset) ∧
      readAt (encodeHeader h) 15 4 = bigEndian 4 (unsigned 32 h.uncompressed) ∧
      readAt (encodeHeader h) 19 4 = bigEndian 4 (unsigned 32 h.compressed) ∧
      readAt (encodeHeader h) 23 4 = bigEndian 4 h.crc.toNat := by
  set count := bigEndian 4 (unsigned 32 h.recordCount) with hcount
  set base := bigEndian 8 (unsigned 64 h.baseOffset) with hbase
  set unc := bigEndian 4 (unsigned 32 h.uncompressed) with hunc
  set comp := bigEndian 4 (unsigned 32 h.compressed) with hcomp
  set crc := bigEndian 4 h.crc.toNat with hcrc
  have hlen : count.length = 4 ∧ base.length = 8 ∧ unc.length = 4 ∧ comp.length = 4 ∧
      crc.length = 4 := by simp [hcount, hbase, hunc, hcomp, hcrc]
  obtain ⟨h1, h2, h3, h4, h5⟩ := hlen
  have hform : encodeHeader h =
      [magicByte0, magicByte1, h.flags] ++ (count ++ (base ++ (unc ++ (comp ++ (crc ++ []))))) := by
    simp [encodeHeader, headerFields, hcount, hbase, hunc, hcomp, hcrc]
  have r1 := readAt_append_append [magicByte0, magicByte1, h.flags] count (base ++ (unc ++ (comp ++ (crc ++ []))))
  have r2 := readAt_append_append ([magicByte0, magicByte1, h.flags] ++ count) base (unc ++ (comp ++ (crc ++ [])))
  have r3 := readAt_append_append ([magicByte0, magicByte1, h.flags] ++ count ++ base) unc (comp ++ (crc ++ []))
  have r4 := readAt_append_append ([magicByte0, magicByte1, h.flags] ++ count ++ base ++ unc) comp (crc ++ [])
  have r5 := readAt_append_append ([magicByte0, magicByte1, h.flags] ++ count ++ base ++ unc ++ comp) crc []
  simp only [append_assoc, length_append, length_cons, length_nil, h1, h2, h3, h4, h5] at r1 r2 r3 r4 r5
  rw [hform]
  exact ⟨r1, r2, r3, r4, r5⟩

/-- A header whose values are in range reads back. -/
theorem decodeHeader_encodeHeader {h : FrameHeader} (hr : h.InRange) : decodeHeader (encodeHeader h) = .ok h := by
  obtain ⟨hcount, hbase, hunc, hcomp, hcrc⟩ := readAt_encodeHeader h
  have hmax : (maxFrameBytes : ℤ) < 2 ^ 31 := by decide
  have e1 := signed_fromBigEndian (w := 4) (by omega) hr.count_pos.le hr.count_lt
  have e2 := signed_fromBigEndian (w := 8) (by omega) hr.base_nonneg hr.base_lt
  have e3 := signed_fromBigEndian (w := 4) (by omega) hr.uncompressed_pos.le (hr.uncompressed_le.trans_lt hmax)
  have e4 := signed_fromBigEndian (w := 4) (by omega) hr.compressed_pos.le (hr.compressed_le.trans_lt hmax)
  have e5 : UInt32.ofNat (fromBigEndian (bigEndian 4 h.crc.toNat)) = h.crc := by
    rw [fromBigEndian_bigEndian, Nat.mod_eq_of_lt (by simpa using h.crc.toNat_lt)]
    simp
  simp only [Nat.reduceMul] at e1 e2 e3 e4
  have hmagic : ¬((encodeHeader h)[0]? ≠ some magicByte0 ∨ (encodeHeader h)[1]? ≠ some magicByte1) :=
    by simp [encodeHeader]
  have hflags : (encodeHeader h).getD 2 0 = h.flags := by simp [encodeHeader, headerFields]
  have hpos : ¬(h.recordCount ≤ 0 ∨ h.uncompressed ≤ 0 ∨ h.compressed ≤ 0 ∨ h.baseOffset < 0) := by
    have := hr.count_pos
    have := hr.uncompressed_pos
    have := hr.compressed_pos
    have := hr.base_nonneg
    omega
  have hle : ¬((maxFrameBytes : ℤ) < h.compressed ∨ (maxFrameBytes : ℤ) < h.uncompressed) := by
    have := hr.uncompressed_le
    have := hr.compressed_le
    omega
  unfold decodeHeader
  rw [if_neg (by simp [encodeHeader_length]), if_neg hmagic]
  simp only [hcount, hbase, hunc, hcomp, hcrc, e1, e2, e3, e4, e5, hflags, if_neg hpos, if_neg hle]

theorem encodeRecordsPayload_cons (r : Bytes) (records : List Bytes) : encodeRecordsPayload (r :: records) =
      bigEndian 4 r.length ++ (r ++ encodeRecordsPayload records) := by
  simp [encodeRecordsPayload]

theorem encodeRecordsPayload_length (records : List Bytes) :
    (encodeRecordsPayload records).length = innerSize records := by
  induction records with
  | nil => rfl
  | cons r records ih =>
    rw [encodeRecordsPayload_cons]
    simp only [innerSize] at ih
    simp [innerSize, ih]
    omega

theorem innerSize_cons (r : Bytes) (records : List Bytes) :
    innerSize (r :: records) = 4 + r.length + innerSize records := by
  simp [innerSize]

theorem length_le_innerSize (records : List Bytes) : records.length * 4 ≤ innerSize records := by
  induction records with
  | nil => simp [innerSize]
  | cons r records ih =>
    rw [innerSize_cons, length_cons]
    omega

/-- A record stream splits back into its records. -/
theorem decodeRecordsPayload_encode (hsize : innerSize records < 2 ^ 32) :
    decodeRecordsPayload records.length (encodeRecordsPayload records) = .ok records := by
  induction records with
  | nil => rfl
  | cons r records ih =>
    rw [innerSize_cons] at hsize
    have hlen : fromBigEndian (bigEndian 4 r.length) = r.length := by
      rw [fromBigEndian_bigEndian, Nat.mod_eq_of_lt (by omega)]
    have htake : (encodeRecordsPayload (r :: records)).take 4 = bigEndian 4 r.length := by
      rw [encodeRecordsPayload_cons, take_append_of_le_length (by simp), take_of_length_le (by simp)]
    have hdrop : (encodeRecordsPayload (r :: records)).drop 4 = r ++ encodeRecordsPayload records := by
      rw [encodeRecordsPayload_cons, drop_append_of_le_length (by simp), drop_of_length_le (by simp), nil_append]
    have hlong : ¬(encodeRecordsPayload (r :: records)).length < 4 := by
      rw [encodeRecordsPayload_length, innerSize_cons]
      omega
    have hrec : ¬(r ++ encodeRecordsPayload records).length < r.length := by simp
    rw [length_cons, decodeRecordsPayload, if_neg hlong, htake, hlen, hdrop]
    simp only [if_neg hrec, drop_left, take_left, ih (by omega), Except.map]

/-- `bytes` is a frame some codec encodes for `records` at offset `base`. -/
structure IsFrame (z : Zstd) (base : ℕ) (records : List Bytes) (bytes : Bytes) : Prop where
  encoded : ∃ c, encodeFrame z c records base = .ok bytes
  base_lt : base < 2 ^ 63

/-- What an encoded frame is made of. -/
structure FrameParts (z : Zstd) (base : ℕ) (records : List Bytes) (bytes : Bytes) (h : FrameHeader)
    (payload : Bytes) : Prop where
  bytes_eq : bytes = encodeHeader h ++ payload
  inRange : h.InRange
  count : h.recordCount = records.length
  base_eq : h.baseOffset = base
  uncompressed : h.uncompressed.toNat = innerSize records
  compressed : h.compressed.toNat = payload.length
  crc : h.crc = crc32cOf (headerFields h ++ payload)
  decode : decodeForFlag z h.codec payload (innerSize records) = .ok (encodeRecordsPayload records)
  innerSize_le : innerSize records ≤ maxFrameBytes

theorem codec_flag (c : Codec) : c.flag &&& codecMask = c.flag := by
  cases c <;> decide

theorem decodeForFlag_encode (z : Zstd) (c : Codec) (b : Bytes) :
    decodeForFlag z c.flag (c.encode z b) b.length = .ok b := by
  cases c with
  | none => rfl
  | zstd =>
    have hne : ¬Codec.zstd.flag = Codec.none.flag := by decide
    simp only [decodeForFlag, if_neg hne, Codec.encode, z.decode_encode, if_true]

theorem Codec.encode_ne_nil (z : Zstd) (c : Codec) {b : Bytes} (hb : b ≠ []) : c.encode z b ≠ [] := by
  cases c with
  | none => exact hb
  | zstd => exact z.encode_ne_nil b hb

/-- Every encoded frame has a header in range in front of a payload that decodes. -/
theorem IsFrame.parts (hf : IsFrame z base records bytes) : ∃ h payload, FrameParts z base records bytes h payload := by
  obtain ⟨⟨c, hc⟩, hbase⟩ := hf
  unfold encodeFrame at hc
  split at hc
  · cases hc
  next hempty =>
    dsimp only at hc
    split at hc
    · cases hc
    next hsize =>
      push Not at hsize
      set payload := c.encode z (encodeRecordsPayload records) with hpayload
      set h := headerFor c records base payload.length with hh
      have hne : records ≠ [] := by simpa using hempty
      have hlen : 0 < records.length := length_pos_iff.mpr hne
      have hcount := length_le_innerSize records
      have hstream : encodeRecordsPayload records ≠ [] := by
        intro hnil
        have := encodeRecordsPayload_length records
        rw [hnil] at this
        simp at this
        omega
      have hpos : 0 < payload.length := length_pos_iff.mpr (Codec.encode_ne_nil z c hstream)
      have hmax : maxFrameBytes = 268435456 := by decide
      refine ⟨{ h with crc := crc32cOf (headerFields h ++ payload) }, payload, ?_⟩
      refine ⟨(Except.ok.inj hc).symm, ?_, rfl, rfl, by simp [hh, headerFor],
        by simp [hh, headerFor], rfl, ?_, hsize.1⟩
      · constructor <;> simp only [hh, headerFor] <;> omega
      · have hflag : ({ h with crc := crc32cOf (headerFields h ++ payload) } : FrameHeader).codec =
            c.flag := by
          simp only [FrameHeader.codec, hh, headerFor, codec_flag]
        rw [hflag, ← encodeRecordsPayload_length]
        exact decodeForFlag_encode z c _

namespace FrameParts

variable {z : Zstd} {base : ℕ} {records : List Bytes} {bytes file payload : Bytes} {h : FrameHeader} {pos : ℕ}

section

variable (hp : FrameParts z base records bytes h payload)
include hp

theorem length_eq : bytes.length = headerSize + payload.length := by
  rw [hp.bytes_eq, length_append, encodeHeader_length]

section

variable (hat : HoldsAt file pos bytes)
include hat

theorem readAt_header : readAt file pos headerSize = encodeHeader h := by
  rw [hat.readAt_zero (by rw [hp.length_eq]; omega), hp.bytes_eq,
    take_append_of_le_length (by rw [encodeHeader_length]),
    take_of_length_le (by rw [encodeHeader_length])]

/-- A read inside the stored payload returns the part of the payload it names. -/
theorem readAt_payload {i n : ℕ} (hin : i + n ≤ payload.length) :
    readAt file (pos + headerSize + i) n = (payload.drop i).take n := by
  have hcut : (encodeHeader h).drop headerSize = [] := drop_of_length_le (by rw [encodeHeader_length])
  rw [add_assoc, hat.readAt_add (by rw [hp.length_eq]; omega), hp.bytes_eq, ← drop_drop,
    drop_append_of_le_length (by rw [encodeHeader_length]), hcut, nil_append]

theorem not_short : ¬(readAt file pos headerSize).length < headerSize := by
  rw [hp.readAt_header hat, encodeHeader_length]
  omega

theorem decodeHeader_readAt : decodeHeader (readAt file pos headerSize) = .ok h := by
  rw [hp.readAt_header hat, decodeHeader_encodeHeader hp.inRange]

end

theorem end_eq : pos + headerSize + h.compressed.toNat = pos + bytes.length := by
  rw [hp.compressed, hp.length_eq]
  omega

/-- The header walk steps over the frame. -/
theorem frameHeaderAt_eq (hat : HoldsAt file pos bytes) : frameHeaderAt file pos = .ok (h, pos + bytes.length) := by
  unfold frameHeaderAt
  rw [if_neg (hp.not_short hat), hp.decodeHeader_readAt hat, ← hp.end_eq]
  rfl

/-- The full read returns the frame's records. -/
theorem readFrameAt_eq (hat : HoldsAt file pos bytes) :
    readFrameAt z file pos = .ok (h, records, pos + bytes.length) := by
  have hread : readAt file (pos + headerSize) payload.length = payload := by
    simpa using hp.readAt_payload hat (i := 0) (n := payload.length) (by omega)
  have hraw : readFrameRaw file pos = .ok (h, payload) := by
    unfold readFrameRaw
    rw [if_neg (hp.not_short hat), hp.decodeHeader_readAt hat, hp.readAt_header hat, readAt_encodeHeader_fields]
    simp only [bind, Except.bind, hp.compressed, hread, lt_irrefl, if_false, ← hp.crc, ne_eq, not_true_eq_false]
    rfl
  have hsplit : decodeRecordsPayload h.recordCount.toNat (encodeRecordsPayload records) = .ok records := by
    rw [hp.count, Int.toNat_natCast]
    exact decodeRecordsPayload_encode (hp.innerSize_le.trans_lt (by decide))
  unfold readFrameAt
  simp only [hraw, bind, Except.bind, hp.decode, encodeRecordsPayload_length, hp.uncompressed,
    ne_eq, not_true_eq_false, if_false, hsplit, hp.end_eq]

end

end FrameParts

/-- Chunked hashing of a payload that the file holds is hashing it whole; of one the file ends
inside, it is a short read. -/
theorem verifyChunks_eq (file : Bytes) (fuel remaining at_ : ℕ) (crc : UInt32)
    (hfuel : remaining < fuel * verifyChunkBytes ∨ remaining = 0) : verifyChunks file fuel remaining at_ crc =
      if (readAt file at_ remaining).length < remaining then .error .unexpectedEOF
      else .ok (crcUpdate castagnoli crc (readAt file at_ remaining)) := by
  induction fuel generalizing remaining at_ crc with
  | zero =>
    have hz : remaining = 0 := by omega
    subst hz
    simp [verifyChunks, readAt]
  | succ fuel ih =>
    unfold verifyChunks
    by_cases hz : remaining = 0
    · subst hz
      simp [readAt]
    have hchunk : 0 < verifyChunkBytes := by decide
    rw [if_neg hz]
    set want := min remaining verifyChunkBytes with hwant
    have hle : want ≤ remaining := by omega
    have hsplit : readAt file at_ remaining =
        readAt file at_ want ++ readAt file (at_ + want) (remaining - want) := by
      unfold readAt
      rw [← drop_drop, ← take_add]
      congr 1
      omega
    have hnext : remaining - want < fuel * verifyChunkBytes ∨ remaining - want = 0 := by
      rcases hfuel with hlt | h0
      · rw [Nat.succ_mul] at hlt
        omega
      · omega
    have hlen := readAt_length file at_ want
    have hlen' := readAt_length file at_ remaining
    have hlen'' := readAt_length file (at_ + want) (remaining - want)
    by_cases hshort : (readAt file at_ want).length < want
    · rw [if_pos hshort, if_pos (by omega)]
    rw [if_neg hshort, ih _ _ _ hnext, hsplit, crcUpdate_append]
    have hiff : (readAt file (at_ + want) (remaining - want)).length < remaining - want ↔
        (readAt file at_ want ++ readAt file (at_ + want) (remaining - want)).length < remaining := by
      rw [length_append]
      omega
    simp only [hiff]

/-- The streamed verification is the header of the whole checked read. -/
theorem verifyFrameAtBuffered_eq (file : Bytes) (pos : ℕ) : verifyFrameAtBuffered file pos =
      (readFrameRaw file pos).map fun r => (r.1, pos + headerSize + r.1.compressed.toNat) := by
  unfold verifyFrameAtBuffered readFrameRaw
  dsimp only
  split
  · rfl
  cases hh : decodeHeader (readAt file pos headerSize) with
  | error e => rfl
  | ok h =>
    have hfuel : h.compressed.toNat < (h.compressed.toNat / verifyChunkBytes + 1) * verifyChunkBytes ∨
          h.compressed.toNat = 0 := .inl (by
      rw [Nat.succ_mul]
      exact Nat.lt_div_mul_add (by decide))
    have hcrc (p : Bytes) : crcUpdate castagnoli (crcUpdate castagnoli 0
        (readAt (readAt file pos headerSize) 2 21)) p = crc32cOf (readAt (readAt file pos headerSize) 2 21 ++ p) :=
      (crcUpdate_append _ _ _ _).symm
    simp only [bind, Except.bind, verifyChunks_eq _ _ _ _ _ hfuel, hcrc]
    by_cases hshort : (readAt file (pos + headerSize) h.compressed.toNat).length < h.compressed.toNat
    · simp only [if_pos hshort, Except.map]
    · simp only [if_neg hshort]
      split <;> rfl

/-- The read-back of a stored frame accepts it. -/
theorem FrameParts.verify_eq {bytes file payload : Bytes} {h : FrameHeader} {pos : ℕ}
    (hp : FrameParts z base records bytes h payload) (hat : HoldsAt file pos bytes) :
    verifyFrameAtBuffered file pos = .ok (h, pos + bytes.length) := by
  have hread := hp.readFrameAt_eq hat
  rw [verifyFrameAtBuffered_eq]
  unfold readFrameAt at hread
  cases hraw : readFrameRaw file pos with
  | error e =>
    rw [hraw] at hread
    exact absurd hread (by simp [bind, Except.bind])
  | ok r =>
    have hheader : r.1 = h := by
      rw [hraw] at hread
      simp only [bind, Except.bind] at hread
      split at hread
      · cases hread
      split at hread
      · cases hread
      split at hread
      · cases hread
      · exact congrArg Prod.fst (Except.ok.inj hread)
    simp only [Except.map, hheader, hp.end_eq]

section

variable (hf : IsFrame z base records bytes)
include hf

/-- A frame is longer than its header and starts with the magic. -/
theorem IsFrame.headerSize_lt : headerSize < bytes.length := by
  obtain ⟨h, payload, hp⟩ := hf.parts
  have := hp.inRange.compressed_pos
  have := hp.compressed
  rw [hp.length_eq]
  omega

theorem IsFrame.ne_nil : bytes ≠ [] := by
  have := hf.headerSize_lt
  exact ne_nil_of_length_pos (by omega)

theorem IsFrame.magic : bytes[0]? = some magicByte0 ∧ bytes[1]? = some magicByte1 := by
  obtain ⟨h, payload, hp⟩ := hf.parts
  simp [hp.bytes_eq, encodeHeader]

theorem IsFrame.records_ne_nil : records ≠ [] := by
  obtain ⟨h, payload, hp⟩ := hf.parts
  have := hp.inRange.count_pos
  rw [hp.count] at this
  exact ne_nil_of_length_pos (by omega)

end

end Narad.Storage
