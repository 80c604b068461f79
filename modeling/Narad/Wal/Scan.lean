import Narad.Wal.Frame

/-!
# Scanning and replaying segments

What `Open` does with a segment, and what replay delivers from one. The scan of the last segment
tells a torn tail from damage by looking for a valid frame behind it; a segment that was prepared
ahead of use ends in a trailer, and there a bounded window of holes counts as torn too.

A segment that holds a prefix of the bytes of a run of frames is scanned, and replayed, up to its last
whole frame.
-/

namespace Narad.Wal

open Lib List

variable (file : Bytes)

/-- The next magic at or after `start`, or `size`. -/
def nextMagicPos (start size : ℕ) : ℕ :=
  searchFrom frameMagic 4096 file start size (size - start + 1) start

def laterValidLoop (file : Bytes) (size maxRecord : ℕ) : ℕ → ℕ → Bool
  | 0, _ => false
  | fuel + 1, pos =>
    if size ≤ pos then false
    else if (frameAt file pos size maxRecord).isSome then true
    else laterValidLoop file size maxRecord fuel (nextMagicPos file (pos + 1) size)

/-- A complete frame that passes its checks starts at or after `start`. -/
def hasLaterValidFrame (start maxRecord : ℕ) : Bool :=
  laterValidLoop file file.length maxRecord (file.length - start + 1) (nextMagicPos file start file.length)

def prepTrailerSize : ℕ := 16

/-- The text `NWPREP01`. -/
def prepTrailerMagic : Bytes := [0x4e, 0x57, 0x50, 0x52, 0x45, 0x50, 0x30, 0x31]

/-- The trailer of a segment whose writes are at most `limit` bytes. -/
def prepTrailer (limit : ℕ) : Bytes :=
  prepTrailerMagic ++ bigEndian 8 limit

def allZero (start stop : ℕ) : Bool :=
  (readAt file start (stop - start)).all (· == 0)

/-- The frames after the damage at `bad` continue the run that starts there with `firstSeq`. -/
def tornLoop (file : Bytes) (bad firstSeq zerosEnd windowEnd maxRecord : ℕ) : ℕ → ℕ → ℕ → Bool
  | 0, _, _ => true
  | fuel + 1, prevSeq, pos =>
    if windowEnd ≤ pos then true
    else
      match frameAt file pos zerosEnd maxRecord with
      | none =>
        tornLoop file bad firstSeq zerosEnd windowEnd maxRecord fuel prevSeq
          (nextMagicPos file (pos + 1) windowEnd)
      | some h =>
        let stop := pos + frameHeaderSize + h.size
        if windowEnd < stop ∨ h.seq ≤ prevSeq ∨ (pos - bad) / (frameHeaderSize + 1) < h.seq - firstSeq
        then false
        else
          tornLoop file bad firstSeq zerosEnd windowEnd maxRecord fuel h.seq
            (nextMagicPos file stop windowEnd)

/-- The damage at `bad` is what a crash leaves of an unsynced write into a prepared segment. -/
def tornPreparedWrite (bad firstSeq maxRecord : ℕ) : Bool :=
  let zerosEnd := file.length - prepTrailerSize
  if file.length ≤ bad + prepTrailerSize then false
  else
    let trailer := readAt file zerosEnd prepTrailerSize
    let limit := fromBigEndian (trailer.drop 8)
    if trailer.take 8 ≠ prepTrailerMagic then false
    else if limit = 0 then false
    else
      let windowEnd := if limit < zerosEnd - bad then bad + limit else zerosEnd
      if !allZero file windowEnd zerosEnd then false
      else
        tornLoop file bad firstSeq zerosEnd windowEnd maxRecord (windowEnd - bad + 1) firstSeq
          (nextMagicPos file (bad + 1) windowEnd)

structure Scanned where
  validEnd : ℕ
  maxSeq : ℕ
  sawRecord : Bool
  deriving DecidableEq

/-- The seq a frame behind those scanned would carry. -/
def Scanned.nextSeq (s : Scanned) (base : ℕ) : ℕ :=
  if s.sawRecord then s.maxSeq + 1 else base

def scanLoop (base : ℕ) (file : Bytes) (maxRecord : ℕ) (tolerateCorruptTail : Bool) :
    ℕ → ℕ → Scanned → Except FrameError Scanned
  | 0, _, acc => .ok acc
  | fuel + 1, offset, acc =>
    match readFrame file offset maxRecord with
    | .error e =>
      if tolerateCorruptTail && (!hasLaterValidFrame file (offset + 1) maxRecord ||
          tornPreparedWrite file offset (acc.nextSeq base) maxRecord) then .ok acc
      else .error e
    | .ok none => .ok acc
    | .ok (some record) =>
      let offset := offset + frameHeaderSize + record.payload.length
      scanLoop base file maxRecord tolerateCorruptTail fuel offset ⟨offset, max acc.maxSeq record.seq, true⟩

def scanSegment (base : ℕ) (file : Bytes) (maxRecord : ℕ) (tolerateCorruptTail : Bool) : Except FrameError Scanned :=
  scanLoop base file maxRecord tolerateCorruptTail (file.length + 1) 0 ⟨0, 0, false⟩

/-- A segment file as the directory lists it. -/
structure SegmentInfo where
  base : ℕ
  file : Bytes

/-- The next seq to assign, seen so far as `nextSeq`, and the end of valid data in the last
segment. -/
def scanForOpen (maxRecord : ℕ) (nextSeq : ℕ) : List SegmentInfo → Except FrameError (ℕ × ℕ)
  | [] => .ok (nextSeq, 0)
  | segment :: rest =>
    match scanSegment segment.base segment.file maxRecord rest.isEmpty with
    | .error e => .error e
    | .ok scanned =>
      let nextSeq := if scanned.sawRecord ∧ nextSeq ≤ scanned.maxSeq then scanned.maxSeq + 1 else nextSeq
      if rest.isEmpty then .ok (nextSeq, scanned.validEnd) else scanForOpen maxRecord nextSeq rest

/-- The records a replay delivers, and the error it ends with. -/
abbrev Replayed := List Record × Option FrameError

def replayLoop (file : Bytes) (start maxRecord : ℕ) : ℕ → ℕ → Replayed
  | 0, _ => ([], none)
  | fuel + 1, offset =>
    match readHeader file offset maxRecord with
    | .error .zeroHeader => ([], none)
    | .error e => ([], some e)
    | .ok none => ([], none)
    | .ok (some h) =>
      match readPayload file h offset with
      | .error e => ([], some e)
      | .ok none => ([], none)
      | .ok (some payload) =>
        let (rest, err) := replayLoop file start maxRecord fuel (offset + frameHeaderSize + h.size)
        if h.seq < start then (rest, err) else (⟨h.seq, payload⟩ :: rest, err)

/-- The records of one segment with a seq at or above `start`. -/
def replaySegment (segment : SegmentInfo) (start maxRecord : ℕ) : Replayed :=
  replayLoop segment.file start maxRecord (segment.file.length + 1) 0

/-- Replay of a directory from a seq on; a segment is passed over when the next one's base shows that
all its records are below. -/
def replay (start maxRecord : ℕ) : List SegmentInfo → Replayed
  | [] => ([], none)
  | [segment] => replaySegment segment start maxRecord
  | segment :: next :: rest =>
    if next.base ≤ start then replay start maxRecord (next :: rest)
    else
      let (records, err) := replaySegment segment start maxRecord
      match err with
      | some e => (records, some e)
      | none =>
        let (later, err) := replay start maxRecord (next :: rest)
        (records ++ later, err)

/-- The frames of consecutive records, the first with seq `seq`. -/
def framesOf : ℕ → List Bytes → Bytes
  | _, [] => []
  | seq, payload :: payloads => frameOf seq payload ++ framesOf (seq + 1) payloads

/-- How many whole frames of the payloads lie in the first `n` bytes of their run. -/
def wholeFrames : ℕ → List Bytes → ℕ
  | _, [] => 0
  | n, payload :: payloads =>
    if n < frameHeaderSize + payload.length then 0
    else wholeFrames (n - (frameHeaderSize + payload.length)) payloads + 1

/-- The records with consecutive seqs from `seq` on. -/
def recordsOf : ℕ → List Bytes → List Record
  | _, [] => []
  | seq, payload :: payloads => ⟨seq, payload⟩ :: recordsOf (seq + 1) payloads

/-- Every record fits, with its seq. -/
def AllFit (maxRecord : ℕ) : ℕ → List Bytes → Prop
  | _, [] => True
  | seq, payload :: payloads => Fits maxRecord seq payload ∧ AllFit maxRecord (seq + 1) payloads

instance decidableAllFit (maxRecord : ℕ) : ∀ seq payloads, Decidable (AllFit maxRecord seq payloads)
  | _, [] => .isTrue trivial
  | seq, payload :: payloads =>
    have := decidableAllFit maxRecord (seq + 1) payloads
    inferInstanceAs (Decidable (Fits maxRecord seq payload ∧ AllFit maxRecord (seq + 1) payloads))

section

variable {file : Bytes} {maxRecord seq start offset fuel n : ℕ} {payloads more : List Bytes} {acc : Scanned}

theorem framesOf_append (seq : ℕ) (payloads more : List Bytes) : framesOf seq (payloads ++ more) =
      framesOf seq payloads ++ framesOf (seq + payloads.length) more := by
  induction payloads generalizing seq with
  | nil => rfl
  | cons payload payloads ih =>
    simp only [cons_append, framesOf, ih, append_assoc, length_cons]
    rw [add_assoc, add_comm 1]

theorem wholeFrames_le (n : ℕ) (payloads : List Bytes) : wholeFrames n payloads ≤ payloads.length := by
  induction payloads generalizing n with
  | nil => exact Nat.zero_le _
  | cons payload payloads ih =>
    rw [wholeFrames]
    split
    · exact Nat.zero_le _
    · exact Nat.succ_le_succ (ih _)

theorem framesOf_take_wholeFrames_le (seq n : ℕ) (payloads : List Bytes) :
    (framesOf seq (payloads.take (wholeFrames n payloads))).length ≤ n := by
  induction payloads generalizing seq n with
  | nil => simp [wholeFrames, framesOf]
  | cons payload payloads ih =>
    rw [wholeFrames]
    split
    · simp [framesOf]
    have := ih (seq + 1) (n - (frameHeaderSize + payload.length))
    simp only [take_succ_cons, framesOf, length_append, frameOf_length]
    omega

/-- What reading at `offset` finds when the rest of the file is a prefix of a run of frames. -/
theorem readFrame_of_run {payload : Bytes} (hfits : Fits maxRecord seq payload)
    (hpre : file.drop offset <+: frameOf seq payload ++ framesOf (seq + 1) payloads) :
    if (file.drop offset).length < frameHeaderSize + payload.length then
      readFrame file offset maxRecord = .ok none
    else
      readFrame file offset maxRecord = .ok (some ⟨seq, payload⟩) ∧
        file.drop (offset + frameHeaderSize + payload.length) <+: framesOf (seq + 1) payloads := by
  split
  next hshort =>
    refine readFrame_torn hfits ?_ (by rwa [frameOf_length])
    exact prefix_of_prefix_length_le hpre (prefix_append _ _) (by rw [frameOf_length]; omega)
  next hlong =>
    have hlen : (frameOf seq payload).length ≤ (file.drop offset).length := by
      rw [frameOf_length]
      omega
    have hat : HoldsAt file offset (frameOf seq payload) :=
      prefix_of_prefix_length_le (prefix_append _ _) hpre hlen
    refine ⟨readFrame_eq hfits hat, ?_⟩
    have hdrop := hpre.drop (frameOf seq payload).length
    rw [drop_left, drop_drop, frameOf_length, ← add_assoc] at hdrop
    exact hdrop

theorem length_drop_frame (file : Bytes) (offset n : ℕ) : (file.drop (offset + frameHeaderSize + n)).length =
    (file.drop offset).length - (frameHeaderSize + n) := by
  rw [length_drop, length_drop]
  omega

theorem readFrame_of_empty (h : file.drop offset = []) : readFrame file offset maxRecord = .ok none := by
  have : readAt file offset frameHeaderSize = [] := by rw [readAt, h, take_nil]
  simp only [readFrame, readHeader, this]
  rfl

/-- Scanning a prefix of a run of frames counts its whole frames. -/
theorem scanLoop_of_run (base : ℕ) (tolerate : Bool) (hfit : AllFit maxRecord seq payloads)
    (hpre : file.drop offset <+: framesOf seq payloads) (hfuel : (file.drop offset).length < fuel)
    (hseq : acc.nextSeq base = seq) (hmax : acc.maxSeq ≤ seq) (hend : acc.validEnd = offset) :
    ∃ scanned, scanLoop base file maxRecord tolerate fuel offset acc = .ok scanned ∧
      scanned.nextSeq base = seq + wholeFrames (file.drop offset).length payloads ∧ scanned.validEnd = offset +
        (framesOf seq (payloads.take (wholeFrames (file.drop offset).length payloads))).length ∧
      (scanned.sawRecord = true ↔ acc.sawRecord = true ∨ 0 < wholeFrames (file.drop offset).length payloads) := by
  obtain ⟨fuel, rfl⟩ : ∃ k, fuel = k + 1 := ⟨fuel - 1, by omega⟩
  induction payloads generalizing seq offset acc fuel with
  | nil =>
    have hempty : file.drop offset = [] := prefix_nil.mp hpre
    refine ⟨acc, ?_, by simp [wholeFrames, hseq], by simp [wholeFrames, framesOf, hend],
      by simp [wholeFrames]⟩
    rw [scanLoop, readFrame_of_empty hempty]
  | cons payload payloads ih =>
    obtain ⟨hfits, hfit⟩ := hfit
    have hread := readFrame_of_run hfits hpre
    rw [wholeFrames]
    split at hread
    next hshort =>
      rw [if_pos hshort]
      refine ⟨acc, ?_, hseq, by simp [framesOf, hend], by simp⟩
      rw [scanLoop, hread]
    next hlong =>
      obtain ⟨hread, hrest⟩ := hread
      have hlen := length_drop_frame file offset payload.length
      have hhead : frameHeaderSize = 20 := rfl
      obtain ⟨scanned, hscan, hnext, hvalid, hsaw⟩ := ih hfit hrest
        (show Scanned.nextSeq ⟨offset + frameHeaderSize + payload.length, max acc.maxSeq seq, true⟩ base =
          seq + 1 by simp [Scanned.nextSeq, max_eq_right hmax])
        (by simp only [max_eq_right hmax]; omega) rfl (fuel - 1) (by omega)
      refine ⟨scanned, ?_, ?_, ?_, ?_⟩
      · rw [scanLoop, hread]
        rw [Nat.sub_add_cancel (by omega)] at hscan
        exact hscan
      · rw [hnext, hlen, if_neg hlong]
        omega
      · rw [hvalid, hlen, if_neg hlong]
        simp only [take_succ_cons, framesOf, length_append, frameOf_length]
        omega
      · rw [hsaw, if_neg hlong]
        simp

/-- A replay step in terms of the sequential reader. -/
theorem replayLoop_succ (file : Bytes) (start maxRecord fuel offset : ℕ) :
    (readFrame file offset maxRecord = .ok none → replayLoop file start maxRecord (fuel + 1) offset = ([], none)) ∧
    ∀ record, readFrame file offset maxRecord = .ok (some record) →
      replayLoop file start maxRecord (fuel + 1) offset = (if record.seq < start then
          (replayLoop file start maxRecord fuel (offset + frameHeaderSize + record.payload.length)).1
        else record :: (replayLoop file start maxRecord fuel (offset + frameHeaderSize + record.payload.length)).1,
        (replayLoop file start maxRecord fuel (offset + frameHeaderSize + record.payload.length)).2) := by
  unfold readFrame
  rw [replayLoop]
  cases readHeader file offset maxRecord with
  | error e => simp
  | ok header =>
    cases header with
    | none => simp
    | some h =>
      dsimp only
      cases hpayload : readPayload file h offset with
      | error e => simp
      | ok payload =>
        cases payload with
        | none => simp
        | some payload =>
          have hsize : payload.length = h.size := by
            unfold readPayload at hpayload
            dsimp only at hpayload
            split at hpayload
            · cases hpayload
            next hlong =>
              split at hpayload <;> cases hpayload
              have := readAt_length file (offset + frameHeaderSize) h.size
              omega
          refine ⟨by simp, ?_⟩
          rintro record hrecord
          cases hrecord
          dsimp only
          rw [hsize]
          split <;> rfl

theorem replayLoop_of_run (hfit : AllFit maxRecord seq payloads)
    (hpre : file.drop offset <+: framesOf seq payloads) (hfuel : (file.drop offset).length < fuel) :
    replayLoop file start maxRecord fuel offset =
      ((recordsOf seq (payloads.take (wholeFrames (file.drop offset).length payloads))).filter
        fun r => decide (start ≤ r.seq), none) := by
  obtain ⟨fuel, rfl⟩ : ∃ k, fuel = k + 1 := ⟨fuel - 1, by omega⟩
  obtain ⟨hnone, hsome⟩ := replayLoop_succ file start maxRecord fuel offset
  induction payloads generalizing seq offset fuel with
  | nil => simpa [wholeFrames, recordsOf] using hnone (readFrame_of_empty (prefix_nil.mp hpre))
  | cons payload payloads ih =>
    obtain ⟨hfits, hfit⟩ := hfit
    have hread := readFrame_of_run hfits hpre
    rw [wholeFrames]
    split at hread
    next hshort =>
      rw [if_pos hshort]
      simpa [recordsOf] using hnone hread
    next hlong =>
      obtain ⟨hread, hrest⟩ := hread
      have hlen := length_drop_frame file offset payload.length
      have hhead : frameHeaderSize = 20 := rfl
      obtain ⟨hnone', hsome'⟩ := replayLoop_succ file start maxRecord (fuel - 1)
        (offset + frameHeaderSize + payload.length)
      have hrec := ih hfit hrest (fuel - 1) (by omega) hnone' hsome'
      rw [Nat.sub_add_cancel (by omega), hlen] at hrec
      rw [hsome _ hread, if_neg hlong, hrec]
      simp only [take_succ_cons, recordsOf, filter_cons]
      by_cases hstart : start ≤ seq
      · simp [hstart, not_lt.mpr hstart]
      · simp [hstart, Nat.lt_of_not_le hstart]

end

end Narad.Wal
