import Narad.Wal.Directory

/-!
# Torn writes into prepared segments

A prepared segment is zero-filled up to a trailer, and a crash may persist any subset of the bytes of an
unsynced write over the zeros. `Open` has to read what is left as a torn tail.

An image is a complete frame that passes its checks wherever it stands. A tear is genuine when every image
behind the synced data is a frame of the write in its place; then the scan keeps the synced frames and the
leading frames of the write that stand whole, and takes the rest for a torn tail. Since the checksum does
not cover the header and images may stand in payloads, not every tear is genuine, and some that are not
make `Open` fail.
-/

namespace Narad.Wal

open Lib List Option

variable {h : FrameHeader}

section

variable {file : Bytes} {pos offset start size maxRecord base fuel n : ℕ} {h : FrameHeader} {acc scanned : Scanned}

theorem nextMagicPos_firstIn (file : Bytes) (start size : ℕ) :
    FirstIn file frameMagic start size (nextMagicPos file start size) :=
  searchFrom_firstIn (by decide) (by decide) _ _ (by omega) (.inl rfl) fun i hi hle => by
    have : frameMagic.length = 4 := rfl
    omega

theorem le_nextMagicPos (hle : start ≤ size) : start ≤ nextMagicPos file start size := by
  rcases (nextMagicPos_firstIn file start size).found with heq | ⟨hge, -, -⟩ <;> omega

/-- What the probe accepts starts with the magic and ends below `size`. -/
theorem frameAt_some (himage : frameAt file pos size maxRecord = some h) :
    HoldsAt file pos frameMagic ∧ 0 < h.size ∧ pos + frameHeaderSize + h.size ≤ size := by
  unfold frameAt at himage
  dsimp only at himage
  split at himage
  · cases himage
  split at himage
  · cases himage
  split at himage
  · cases himage
  rename_i hmagic
  split at himage
  · cases himage
  rename_i hsize
  split at himage
  · cases himage
  rename_i hend
  split at himage
  · cases himage
  split at himage <;> cases himage
  refine ⟨?_, by omega, by omega⟩
  have hmagic : (readAt file pos frameHeaderSize).take 4 = frameMagic := not_not.mp hmagic
  rw [HoldsAt, ← hmagic, readAt, take_take]
  exact take_prefix _ _

theorem frameAt_mono {size' : ℕ} (hle : size ≤ size') (himage : frameAt file pos size maxRecord = some h) :
    frameAt file pos size' maxRecord = some h := by
  have hend := (frameAt_some himage).2.2
  unfold frameAt at himage ⊢
  dsimp only at himage ⊢
  rw [if_neg (by omega)] at himage ⊢
  split at himage
  · cases himage
  rename_i hlen
  split at himage
  · cases himage
  rename_i hmagic
  split at himage
  · cases himage
  rename_i hsize
  split at himage
  · cases himage
  rw [if_neg hlen, if_neg hmagic, if_neg hsize, if_neg (by omega)]
  exact himage

/-- What the probe finds behind the damage is an image. -/
theorem image_of_laterValidLoop (hpos : start ≤ pos ∨ file.length ≤ pos)
    (h : laterValidLoop file file.length maxRecord fuel pos = true) :
    ∃ i, start ≤ i ∧ (frameAt file i file.length maxRecord).isSome = true := by
  induction fuel generalizing pos with
  | zero => cases h
  | succ fuel ih =>
    rw [laterValidLoop] at h
    split at h
    · cases h
    split at h
    next himage => exact ⟨pos, by omega, himage⟩
    · have hle : pos + 1 ≤ nextMagicPos file (pos + 1) file.length := le_nextMagicPos (by omega)
      exact ih (.inl (by omega)) h

theorem image_of_hasLaterValidFrame (h : hasLaterValidFrame file start maxRecord = true) :
    ∃ i, start ≤ i ∧ (frameAt file i file.length maxRecord).isSome = true := by
  refine image_of_laterValidLoop ?_ h
  rcases (nextMagicPos_firstIn file start file.length).found with heq | ⟨hge, -, -⟩
  · exact .inr heq.ge
  · exact .inl hge

/-- What the sequential reader accepts is an image. -/
theorem readFrame_image {r : Record} (h : readFrame file offset maxRecord = .ok (some r)) :
    ∃ header, frameAt file offset file.length maxRecord = some header ∧ header.seq = r.seq ∧
      header.size = r.payload.length := by
  unfold readFrame at h
  split at h
  · cases h
  · cases h
  rename_i header hheader
  split at h
  · cases h
  · cases h
  rename_i payload hpayload
  cases h
  unfold readHeader at hheader
  dsimp only at hheader
  split at hheader
  · cases hheader
  rename_i hlen
  split at hheader
  · cases hheader
  split at hheader
  · cases hheader
  rename_i hmagic
  split at hheader
  · cases hheader
  rename_i hempty
  split at hheader
  · cases hheader
  rename_i hmax
  cases hheader
  unfold readPayload at hpayload
  dsimp only at hpayload
  split at hpayload
  · cases hpayload
  rename_i hlong
  split at hpayload
  · cases hpayload
  rename_i hcrc
  cases hpayload
  have hhead : frameHeaderSize = 20 := rfl
  have hsize := readAt_length file (offset + frameHeaderSize) (decodeHeader (readAt file offset frameHeaderSize)).size
  have hheadLen := readAt_length file offset frameHeaderSize
  refine ⟨decodeHeader (readAt file offset frameHeaderSize), ?_, rfl, by dsimp only; omega⟩
  unfold frameAt
  rw [if_neg (by omega), if_neg hlen, if_neg hmagic, if_neg (by omega), if_neg (by omega), if_neg hlong,
    if_pos (not_not.mp hcrc)]

/-- The sequential reader accepts every image. -/
theorem readFrame_of_image (himage : frameAt file offset file.length maxRecord = some h) :
    ∃ r, readFrame file offset maxRecord = .ok (some r) := by
  unfold frameAt at himage
  dsimp only at himage
  split_ifs at himage with _ hlen hnomagic hsize hend hlong hcrc
  have hnonzero : readAt file offset frameHeaderSize ≠ List.replicate frameHeaderSize 0 := by
    intro hzero
    rw [hzero] at hnomagic
    exact hnomagic (by decide)
  simp only [not_or] at hsize
  simp only [readFrame, readHeader, hlen, hnonzero, hnomagic, hsize.1, hsize.2, if_false, readPayload, hlong,
    hcrc, not_true_eq_false, ne_eq, Except.ok.injEq, some.injEq, exists_eq']

/-- A scan that stands before the frame with seq `seq`, at `offset`. -/
structure Scanned.Before (base offset seq : ℕ) (acc : Scanned) : Prop where
  validEnd : acc.validEnd = offset
  maxSeq : acc.maxSeq ≤ seq
  nextSeq : acc.nextSeq base = seq

theorem Scanned.Before.next {seq : ℕ} (h : acc.Before base offset seq) (offset' : ℕ) :
    Scanned.Before base offset' (seq + 1) ⟨offset', max acc.maxSeq seq, true⟩ := by
  have hmax := max_eq_right h.maxSeq
  exact ⟨rfl, by dsimp only; omega, by simp [Scanned.nextSeq, hmax]⟩

/-- A run of frames that stands in the file is scanned over. -/
theorem scanLoop_over {seq : ℕ} {payloads : List Bytes} (tolerate : Bool) (hfit : AllFit maxRecord seq payloads)
    (hat : HoldsAt file offset (framesOf seq payloads)) (hacc : acc.Before base offset seq)
    (hfuel : file.length < offset + fuel) : ∃ fuel' acc', scanLoop base file maxRecord tolerate fuel offset acc =
        scanLoop base file maxRecord tolerate fuel' (offset + (framesOf seq payloads).length) acc' ∧
      acc'.Before base (offset + (framesOf seq payloads).length) (seq + payloads.length) ∧
      file.length < offset + (framesOf seq payloads).length + fuel' := by
  induction payloads generalizing seq offset acc fuel with
  | nil => exact ⟨fuel, acc, rfl, hacc, hfuel⟩
  | cons payload payloads ih =>
    obtain ⟨hfits, hfit⟩ := hfit
    have hframe : HoldsAt file offset (frameOf seq payload) := (prefix_append _ _).trans hat
    have hlen : (frameOf seq payload).length ≤ (file.drop offset).length := hframe.length_le
    have hhead : frameHeaderSize = 20 := rfl
    rw [frameOf_length, length_drop] at hlen
    obtain ⟨fuel, rfl⟩ : ∃ k, fuel = k + 1 := ⟨fuel - 1, by omega⟩
    have hrest : HoldsAt file (offset + frameHeaderSize + payload.length) (framesOf (seq + 1) payloads) := by
      have := hat.drop (frameOf seq payload).length
      rw [framesOf, drop_left, drop_drop, frameOf_length, ← add_assoc] at this
      exact this
    obtain ⟨fuel', acc', hscan, hbefore, hfuel'⟩ := @ih _ fuel _ _ hfit hrest (hacc.next _) (by omega)
    have hstop : offset + (framesOf seq (payload :: payloads)).length =
        offset + frameHeaderSize + payload.length + (framesOf (seq + 1) payloads).length := by
      rw [framesOf, length_append, frameOf_length]
      omega
    rw [hstop, length_cons, Nat.add_comm payloads.length 1, ← Nat.add_assoc seq]
    refine ⟨fuel', acc', ?_, hbefore, hfuel'⟩
    rw [← hscan]
    conv_lhs => rw [scanLoop, readFrame_eq hfits hframe]

/-- A frame is read the same from a file that is cut behind it. -/
theorem readFrame_take {r : Record} (h : readFrame file offset maxRecord = .ok (some r))
    (hle : offset + frameHeaderSize + r.payload.length ≤ n) :
    readFrame (file.take n) offset maxRecord = .ok (some r) := by
  have hcut (pos k : ℕ) (hk : pos + k ≤ n) : readAt (file.take n) pos k = readAt file pos k := by
    rw [readAt, readAt, drop_take, take_take, min_eq_left (by omega)]
  rw [readFrame, readHeader, hcut _ _ (by omega), ← readHeader]
  rw [readFrame] at h
  split at h
  · cases h
  · cases h
  unfold readPayload at h ⊢
  grind

theorem scanLoop_of_end (again : Bool) :
    scanLoop base (file.take offset) maxRecord again fuel offset acc = .ok acc := by
  cases fuel with
  | zero => rfl
  | succ fuel => rw [scanLoop, readFrame_of_empty (by simp)]

/-- Where a scan ended, the file cut there scans to the same end, with nothing left to tolerate. -/
theorem scanLoop_take {tolerate : Bool} (h : scanLoop base file maxRecord tolerate fuel offset acc = .ok scanned)
    (hend : acc.validEnd = offset) (hin : offset ≤ file.length) :
    offset ≤ scanned.validEnd ∧ scanned.validEnd ≤ file.length ∧ ∀ again fuel', scanned.validEnd < offset + fuel' →
      scanLoop base (file.take scanned.validEnd) maxRecord again fuel' offset acc = .ok scanned := by
  fun_induction scanLoop base file maxRecord tolerate fuel offset acc with
  | case3 => cases h
  | case5 fuel offset acc r hread next ih =>
    obtain ⟨header, himage, -, hsize⟩ := readFrame_image hread
    have hfits := (frameAt_some himage).2.2
    rw [hsize] at hfits
    obtain ⟨hle, hlen, hcut⟩ := ih h rfl hfits
    refine ⟨by omega, hlen, fun again fuel' hfuel => ?_⟩
    cases fuel' with
    | zero => omega
    | succ fuel' =>
      have hhead : frameHeaderSize = 20 := rfl
      rw [scanLoop, readFrame_take hread hle]
      exact hcut again fuel' (by omega)
  | _ =>
    cases h
    subst hend
    exact ⟨le_rfl, hin, fun again _ _ => scanLoop_of_end again⟩

end

/-- A write into a prepared segment and the bytes of it that a crash persisted. -/
structure Tear where
  base : ℕ
  maxRecord : ℕ
  segmentBytes : ℕ
  limit : ℕ
  synced : List Bytes
  written : List Bytes
  persisted : ℕ → Bool

namespace Tear

variable (t : Tear)

/-- Where the synced data ends. -/
def start : ℕ :=
  (framesOf t.base t.synced).length

/-- The write: a run of whole frames. -/
def bytes : Bytes :=
  framesOf (t.base + t.synced.length) t.written

/-- What is left of the write, over the zeros. -/
def torn : Bytes :=
  t.bytes.mapIdx fun i b => if t.persisted i then b else 0

/-- The segment after the crash. -/
def file : Bytes :=
  framesOf t.base t.synced ++ (t.torn ++
    (List.replicate (t.segmentBytes - (t.start + t.bytes.length)) 0 ++ prepTrailer t.limit))

/-- A write as `writeAndSyncFileOps` performs it. -/
structure Valid : Prop where
  fit : AllFit t.maxRecord t.base (t.synced ++ t.written)
  written_ne : t.written ≠ []
  room : t.start + t.bytes.length ≤ t.segmentBytes
  within : t.bytes.length ≤ t.limit ∨ t.written.length = 1
  limit_pos : 0 < t.limit
  limit_lt : t.limit < 2 ^ 64

/-- The end of the first `j` frames of the write. -/
def boundary (j : ℕ) : ℕ :=
  t.start + (framesOf (t.base + t.synced.length) (t.written.take j)).length

/-- `Open`'s scan does not fail, keeps the synced frames and ends at a frame boundary of the write. -/
def Tolerated : Prop :=
  ∃ scanned, scanSegment t.base t.file t.maxRecord true = .ok scanned ∧
    ∃ j ≤ t.written.length, scanned.validEnd = t.boundary j

/-- A complete frame that passes its checks stands where frame `k` of the write was put. -/
def Stands (k : ℕ) : Prop :=
  (frameAt t.file (t.boundary k) t.file.length t.maxRecord).isSome = true

/-- Every image behind the synced data is a frame of the write: none stands in a payload, and none
comes of a header that was persisted in part. -/
def Genuine : Prop :=
  ∀ pos h, t.start ≤ pos → frameAt t.file pos t.file.length t.maxRecord = some h →
    ∃ k payload, t.written[k]? = some payload ∧ pos = t.boundary k ∧
      h.seq = t.base + t.synced.length + k ∧ h.size = payload.length

variable {t}

theorem boundary_ge (j : ℕ) : t.start ≤ t.boundary j :=
  Nat.le_add_right _ _

@[simp] theorem boundary_zero : t.boundary 0 = t.start := by
  simp [boundary, framesOf]

theorem boundary_length : t.boundary t.written.length = t.start + t.bytes.length := by
  rw [boundary, take_length, bytes]

theorem boundary_succ {k : ℕ} {payload : Bytes} (hk : t.written[k]? = some payload) :
    t.boundary (k + 1) = t.boundary k + frameHeaderSize + payload.length := by
  rw [boundary, boundary, take_add_one, hk, toList_some, framesOf_append, length_append]
  simp [framesOf]
  omega

theorem Valid.payload_ne (h : t.Valid) {k : ℕ} {payload : Bytes} (hk : t.written[k]? = some payload) :
    0 < payload.length := by
  obtain ⟨hlt, rfl⟩ := List.getElem?_eq_some_iff.mp hk
  have hfit := h.fit.drop (t.synced.length + k)
  rw [drop_length_add_append, drop_eq_getElem_cons hlt] at hfit
  exact length_pos_iff.mpr hfit.1.ne_nil

variable {j k : ℕ}

/-- Every frame takes more than its header. -/
theorem boundary_gap (h : t.Valid) (hjk : j ≤ k) (hk : k ≤ t.written.length) :
    t.boundary j + (frameHeaderSize + 1) * (k - j) ≤ t.boundary k := by
  induction k, hjk using Nat.le_induction with
  | base => simp
  | succ k hjk ih =>
    have hget : t.written[k]? = some t.written[k] := getElem?_eq_getElem (by omega)
    have hpos := h.payload_ne hget
    have hih := ih (by omega)
    have hmul : (frameHeaderSize + 1) * (k + 1 - j) =
        (frameHeaderSize + 1) * (k - j) + (frameHeaderSize + 1) := by
      rw [Nat.succ_sub hjk, Nat.mul_succ]
    rw [boundary_succ hget, hmul]
    omega

theorem boundary_strictMonoOn (h : t.Valid) : StrictMonoOn t.boundary (Set.Iic t.written.length) := by
  intro j _ k hk hjk
  have := boundary_gap h hjk.le hk
  have hmul : (frameHeaderSize + 1) * 1 ≤ (frameHeaderSize + 1) * (k - j) := Nat.mul_le_mul_left _ (by omega)
  omega

/-- An image stands where a frame of the write does, and ends where the next one starts. -/
theorem Genuine.image (hg : t.Genuine) {pos size : ℕ} (hstart : t.start ≤ pos)
    (hsize : size ≤ t.file.length) (himage : frameAt t.file pos size t.maxRecord = some h) :
    ∃ k < t.written.length, pos = t.boundary k ∧ h.seq = t.base + t.synced.length + k ∧
      pos + frameHeaderSize + h.size = t.boundary (k + 1) := by
  obtain ⟨k, payload, hk, rfl, hseq, hlen⟩ := hg pos h hstart (frameAt_mono hsize himage)
  refine ⟨k, (List.getElem?_eq_some_iff.mp hk).1, rfl, hseq, ?_⟩
  rw [boundary_succ hk, hlen]

theorem bytes_torn_length : t.torn.length = t.bytes.length := by
  rw [torn, length_mapIdx]

theorem Valid.file_length (h : t.Valid) : t.file.length = t.segmentBytes + prepTrailerSize := by
  have hroom := h.room
  have htrailer : (prepTrailer t.limit).length = prepTrailerSize := by
    simp [prepTrailer, prepTrailerMagic, prepTrailerSize]
  rw [file, length_append, length_append, length_append, length_replicate, bytes_torn_length, htrailer, ← start]
  omega

/-- Behind the write stand zeros and the trailer. -/
theorem file_drop : t.file.drop (t.start + t.bytes.length) =
    replicate (t.segmentBytes - (t.start + t.bytes.length)) 0 ++ prepTrailer t.limit := by
  have hlen : (framesOf t.base t.synced ++ t.torn).length = t.start + t.bytes.length := by
    rw [length_append, bytes_torn_length, ← start]
  rw [file, ← append_assoc, drop_left' hlen]

theorem Valid.holdsAt_trailer (h : t.Valid) : HoldsAt t.file t.segmentBytes (prepTrailer t.limit) := by
  rw [HoldsAt, ← Nat.add_sub_cancel' h.room, ← drop_drop, file_drop, drop_left' (by simp)]

theorem allZero_behind {i : ℕ} (hi : t.boundary t.written.length ≤ i) (hle : i ≤ t.segmentBytes) :
    allZero t.file i t.segmentBytes = true := by
  rw [boundary_length] at hi
  have hat : HoldsAt t.file (t.start + t.bytes.length)
      (replicate (t.segmentBytes - (t.start + t.bytes.length)) 0) := by
    rw [HoldsAt, file_drop]
    exact prefix_append _ _
  have hread := hat.readAt_add (i := i - (t.start + t.bytes.length)) (n := t.segmentBytes - i) (by simp; omega)
  rw [Nat.add_sub_cancel' hi, drop_replicate, take_replicate] at hread
  rw [allZero, hread]
  simp

/-- The images behind frame `k` continue the run. -/
theorem Genuine.tornLoop (hv : t.Valid) (hg : t.Genuine) {pos zerosEnd windowEnd : ℕ}
    (hzeros : zerosEnd ≤ t.file.length) (hwindow : t.boundary t.written.length ≤ windowEnd) (hjk : j ≤ k)
    (hk : k ≤ t.written.length) (hpos : t.boundary k < pos) (fuel : ℕ) :
    tornLoop t.file (t.boundary j) (t.base + t.synced.length + j) zerosEnd windowEnd t.maxRecord fuel
      (t.base + t.synced.length + k) pos = true := by
  -- on the fuel; what carries it is that the search stands behind the frame whose seq came last
  induction fuel generalizing k pos with
  | zero => rfl
  | succ fuel ih =>
    rw [Wal.tornLoop]
    split
    · rfl
    cases himage : frameAt t.file pos zerosEnd t.maxRecord with
    | none =>
      have hle : pos + 1 ≤ nextMagicPos t.file (pos + 1) windowEnd := le_nextMagicPos (by omega)
      exact ih hjk hk (by omega)
    | some h =>
      obtain ⟨m, hm, rfl, hseq, hend⟩ := hg.image ((boundary_ge k).trans hpos.le) hzeros himage
      have hkm := ((boundary_strictMonoOn hv).lt_iff_lt hk hm.le).mp hpos
      have hgap := boundary_gap hv (by omega : j ≤ m) hm.le
      have hlast := boundary_gap hv (by omega : m + 1 ≤ t.written.length) le_rfl
      have hnext : t.boundary m < t.boundary (m + 1) := boundary_strictMonoOn hv hm.le hm (Nat.lt_succ_self m)
      have hroom : h.seq - (t.base + t.synced.length + j) ≤
          (t.boundary m - t.boundary j) / (frameHeaderSize + 1) := by
        rw [hseq, Nat.add_sub_add_left, Nat.le_div_iff_mul_le (by decide), Nat.mul_comm]
        omega
      have hle : t.boundary (m + 1) ≤ nextMagicPos t.file (t.boundary (m + 1)) windowEnd :=
        le_nextMagicPos (by omega)
      dsimp only
      rw [hend, if_neg (by omega), hseq]
      exact ih (by omega) hm.le (by omega)

/-- Damage where frame `j` of the write was put is taken for a torn write. -/
theorem Genuine.tornPreparedWrite (hv : t.Valid) (hg : t.Genuine) (hj : j < t.written.length)
    (hlimit : t.bytes.length ≤ t.limit) :
    tornPreparedWrite t.file (t.boundary j) (t.base + t.synced.length + j) t.maxRecord = true := by
  have hlast := boundary_length (t := t)
  have hge := boundary_ge (t := t) j
  have hroom := hv.room
  have hend := boundary_strictMonoOn hv hj.le (le_refl t.written.length) hj
  have hsize : prepTrailerSize = 16 := rfl
  have hflen := hv.file_length
  have hzerosEnd : t.file.length - prepTrailerSize = t.segmentBytes := by omega
  have htrailer : readAt t.file t.segmentBytes prepTrailerSize = prepTrailer t.limit := by
    rw [hv.holdsAt_trailer.readAt_zero (by simp [prepTrailer, prepTrailerMagic, prepTrailerSize])]
    exact take_of_length_le (by simp [prepTrailer, prepTrailerMagic, prepTrailerSize])
  have hmagic : (prepTrailer t.limit).take 8 = prepTrailerMagic := take_left' rfl
  have hvalue : fromBigEndian ((prepTrailer t.limit).drop 8) = t.limit := by
    rw [prepTrailer, drop_left' (by rfl), fromBigEndian_bigEndian, Nat.mod_eq_of_lt (by simpa using hv.limit_lt)]
  have hwindow : t.boundary t.written.length ≤
      if t.limit < t.segmentBytes - t.boundary j then t.boundary j + t.limit else t.segmentBytes := by
    split <;> omega
  rw [Wal.tornPreparedWrite]
  simp only [hzerosEnd, htrailer, hmagic, hvalue, hv.limit_pos.ne', ne_eq, not_true_eq_false, if_false]
  rw [if_neg (by omega), allZero_behind hwindow (by split <;> omega)]
  have hle := @le_nextMagicPos t.file _ _ (hend.trans_le hwindow)
  exact hg.tornLoop hv (by omega) hwindow le_rfl hj.le (Nat.lt_of_succ_le hle) _

/-- The scan from frame `k` of the write on: it keeps the frames that stand up to the first that does not. -/
theorem Genuine.scanLoop (hv : t.Valid) (hg : t.Genuine) {fuel : ℕ} {acc : Scanned} (hk : k ≤ t.written.length)
    (hacc : acc.Before t.base (t.boundary k) (t.base + t.synced.length + k))
    (hfuel : t.file.length < t.boundary k + fuel) :
    ∃ scanned, scanLoop t.base t.file t.maxRecord true fuel (t.boundary k) acc = .ok scanned ∧
      ∃ j, k ≤ j ∧ j ≤ t.written.length ∧ scanned.validEnd = t.boundary j ∧
        scanned.nextSeq t.base = t.base + t.synced.length + j ∧ (∀ i, k ≤ i → i < j → t.Stands i) ∧ ¬t.Stands j := by
  induction fuel generalizing k acc with
  | zero =>
    have hend := boundary_gap hv hk le_rfl
    have := boundary_length (t := t)
    have := hv.room
    have := hv.file_length
    omega
  | succ fuel ih =>
    have hhere : (∀ r, readFrame t.file (t.boundary k) t.maxRecord ≠ .ok (some r)) → ∃ j, k ≤ j ∧
        j ≤ t.written.length ∧ acc.validEnd = t.boundary j ∧
        acc.nextSeq t.base = t.base + t.synced.length + j ∧ (∀ i, k ≤ i → i < j → t.Stands i) ∧ ¬t.Stands j := by
      intro hnone
      refine ⟨k, le_rfl, hk, hacc.validEnd, hacc.nextSeq, fun i hi hlt => absurd hlt (by omega), fun hstands => ?_⟩
      obtain ⟨h, himage⟩ := isSome_iff_exists.mp hstands
      obtain ⟨r, hread⟩ := readFrame_of_image himage
      exact hnone r hread
    rw [Wal.scanLoop]
    cases hread : readFrame t.file (t.boundary k) t.maxRecord with
    | error e =>
      have htorn : (true && (!hasLaterValidFrame t.file (t.boundary k + 1) t.maxRecord ||
          Wal.tornPreparedWrite t.file (t.boundary k) (acc.nextSeq t.base) t.maxRecord)) = true := by
        cases hlater : hasLaterValidFrame t.file (t.boundary k + 1) t.maxRecord with
        | false => rfl
        | true =>
          -- an image behind the damage is a later frame, so two were written and the write kept to the limit
          obtain ⟨pos, hpos, hsome⟩ := image_of_hasLaterValidFrame hlater
          obtain ⟨h, himage⟩ := isSome_iff_exists.mp hsome
          obtain ⟨m, hm, rfl, -, -⟩ := hg.image ((boundary_ge k).trans (by omega)) le_rfl himage
          have hkm := ((boundary_strictMonoOn hv).lt_iff_lt hk hm.le).mp hpos
          have hlimit : t.bytes.length ≤ t.limit := hv.within.resolve_right (by omega)
          rw [hacc.nextSeq, hg.tornPreparedWrite hv (by omega) hlimit]
          rfl
      dsimp only
      rw [if_pos htorn]
      exact ⟨acc, rfl, hhere (by simp [hread])⟩
    | ok result =>
      cases result with
      | none => exact ⟨acc, rfl, hhere (by simp [hread])⟩
      | some r =>
        obtain ⟨header, himage, hseq, hsize⟩ := readFrame_image hread
        obtain ⟨m, hm, hpos, hseq', hend⟩ := hg.image (boundary_ge k) le_rfl himage
        obtain rfl := (boundary_strictMonoOn hv).injOn hk hm.le hpos
        have hnext := hacc.next (t.boundary (k + 1))
        rw [hsize] at hend
        dsimp only
        rw [hend, ← hseq, hseq']
        have hgap : t.boundary k < t.boundary (k + 1) := boundary_strictMonoOn hv hm.le hm (Nat.lt_succ_self k)
        obtain ⟨scanned, hscan, j, hkj, hj, hvalid, hnextSeq, hstands, hnot⟩ :=
          @ih (k + 1) _ hm hnext (by omega)
        refine ⟨scanned, hscan, j, by omega, hj, hvalid, hnextSeq, fun i hi hlt => ?_, hnot⟩
        rcases eq_or_lt_of_le hi with rfl | hi
        · exact isSome_iff_exists.mpr ⟨header, himage⟩
        · exact hstands i hi hlt

/-- The scan of a segment whose last write was torn and left no forged image. -/
theorem Genuine.scanSegment (hv : t.Valid) (hg : t.Genuine) :
    ∃ scanned, scanSegment t.base t.file t.maxRecord true = .ok scanned ∧
      ∃ j ≤ t.written.length, scanned.validEnd = t.boundary j ∧
        scanned.nextSeq t.base = t.base + t.synced.length + j ∧ (∀ i < j, t.Stands i) ∧ ¬t.Stands j := by
  have hfit : AllFit t.maxRecord t.base t.synced := by
    have := hv.fit.take t.synced.length
    rwa [take_left] at this
  have hat : HoldsAt t.file 0 (framesOf t.base t.synced) := prefix_append _ _
  have hinit : Scanned.Before t.base 0 t.base ⟨0, 0, false⟩ := ⟨rfl, Nat.zero_le _, rfl⟩
  obtain ⟨fuel, acc, hscan, hacc, hfuel⟩ :=
    scanLoop_over true hfit hat hinit (show t.file.length < 0 + (t.file.length + 1) by omega)
  rw [zero_add, ← start, ← boundary_zero] at hscan hacc hfuel
  obtain ⟨scanned, hok, j, -, hj, hvalid, hnext, hstands, hnot⟩ := hg.scanLoop hv (Nat.zero_le _) hacc hfuel
  exact ⟨scanned, hscan.trans hok, j, hj, hvalid, hnext, fun i hi => hstands i (Nat.zero_le _) hi, hnot⟩

end Tear

/-- Two records behind a synced one; the crash kept the second only. -/
def lostFirst : Tear where
  base := 1
  maxRecord := 1024
  segmentBytes := 128
  limit := 64
  synced := [[1]]
  written := [[2], [3]]
  persisted := fun i => 21 ≤ i

theorem lostFirst_valid : lostFirst.Valid :=
  ⟨by decide +kernel, by decide, by decide, .inl (by decide), by decide, by decide⟩

theorem lostFirst_genuine : lostFirst.Genuine := by
  intro pos h hstart himage
  have himages : ∀ pos < 144, 21 ≤ pos → ∀ h ∈ frameAt lostFirst.file pos lostFirst.file.length 1024,
      pos = 42 ∧ h.seq = 3 ∧ h.size = 1 := by decide +kernel
  have hlt : pos < 144 := by
    obtain ⟨-, hpos, hend⟩ := frameAt_some himage
    rw [show lostFirst.file.length = 144 by decide +kernel] at hend
    omega
  obtain ⟨rfl, hseq, hsize⟩ := himages pos hlt hstart h himage
  exact ⟨1, [3], rfl, by decide, hseq, hsize⟩

/-- `Open` tolerates every tear that leaves only frames of the write. -/
theorem genuine_tear_tolerated (t : Tear) (hv : t.Valid) (hg : t.Genuine) : t.Tolerated := by
  obtain ⟨scanned, hscan, j, hj, hend, -⟩ := hg.scanSegment hv
  exact ⟨scanned, hscan, j, hj, hend⟩

theorem lostFirst_opens : lostFirst.Tolerated :=
  genuine_tear_tolerated lostFirst lostFirst_valid lostFirst_genuine

/-- What `Open` leaves of a segment scans to the same end ever after, also once it is no longer the last. -/
theorem opened_segment_rescans {base maxRecord : ℕ} {file : Bytes} {scanned : Scanned} {tolerate : Bool}
    (h : scanSegment base file maxRecord tolerate = .ok scanned) (again : Bool) :
    scanSegment base (resize file scanned.validEnd) maxRecord again = .ok scanned := by
  obtain ⟨-, hlen, hcut⟩ := scanLoop_take h rfl (Nat.zero_le _)
  rw [resize_of_le hlen]
  exact hcut again _ (by rw [length_take, min_eq_left hlen]; omega)

theorem lostFirst_rescans : scanSegment 1 (resize lostFirst.file 21) 1024 false = .ok ⟨21, 1, true⟩ := by
  have hscan : scanSegment 1 lostFirst.file 1024 true = .ok ⟨21, 1, true⟩ := by decide +kernel
  exact opened_segment_rescans hscan false

end Narad.Wal
