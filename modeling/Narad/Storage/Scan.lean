import Narad.Lib.Pattern
import Narad.Storage.FrameSpec

/-!
# Searching a segment for the next frame

Past damage the code looks for the next magic in 4 KiB chunks that overlap by one byte, and, where
it must not be fooled by a stray magic, for the next position whose whole frame passes its
checksum. Both searches are shown to find the first such position of the segment, so neither the
chunking nor the overlap is visible to their callers.
-/

namespace Narad.Storage

open Lib

variable (file : Bytes)

/-- The magic stands at position `i` of the file. -/
def MagicAt (i : ℕ) : Prop :=
  file[i]? = some magicByte0 ∧ file[i + 1]? = some magicByte1

instance (file : Bytes) (i : ℕ) : Decidable (MagicAt file i) :=
  inferInstanceAs (Decidable (_ ∧ _))

/-- A frame that passes its checksum starts at position `i` of the file. -/
def ValidAt (i : ℕ) : Prop :=
  (verifyFrameAtBuffered file i).isOk = true

instance (file : Bytes) (i : ℕ) : Decidable (ValidAt file i) :=
  inferInstanceAs (Decidable (_ = true))

/-- The first position of a magic inside one chunk. -/
def findMagic : Bytes → Option ℕ
  | a :: b :: rest =>
    if a = magicByte0 ∧ b = magicByte1 then some 0 else (findMagic (b :: rest)).map (· + 1)
  | _ => none

/-- The bytes one step of the magic search covers. -/
def magicChunk : ℕ := 4096

def nextMagicLoop (file : Bytes) (start size : ℕ) : ℕ → ℕ → ℕ
  | 0, _ => size
  | fuel + 1, pos =>
    if size ≤ pos then size
    else
      let end_ := min (pos + magicChunk) size
      let readStart := if start < pos then pos - 1 else pos
      let buf := readAt file readStart (end_ - readStart)
      if buf.length < 2 then size
      else
        match findMagic buf with
        | some i => readStart + i
        | none => nextMagicLoop file start size fuel end_

/-- The next magic at or after `start`, or `size` when there is none. -/
def nextMagicInSegment (start size : ℕ) : ℕ :=
  nextMagicLoop file start size (size - start + 1) start

def nextValidLoop (file : Bytes) (size : ℕ) : ℕ → ℕ → ℕ
  | 0, _ => size
  | fuel + 1, pos =>
    if size ≤ pos then size
    else if ValidAt file pos then pos
    else nextValidLoop file size fuel (nextMagicInSegment file (pos + 1) size)

/-- The next frame at or after `start` that passes its checksum, or `size` when there is none. -/
def nextValidFramePos (start size : ℕ) : ℕ :=
  nextValidLoop file size (size - start + 1) (nextMagicInSegment file start size)

/-- `r` is the first position from `start` with `P` whose two magic bytes lie below `bound`, or
`bound` if there is none. -/
structure IsFirst (P : ℕ → Prop) (start bound r : ℕ) : Prop where
  none_before : ∀ i, start ≤ i → i < r → i + 1 < bound → ¬P i
  found : r = bound ∨ (start ≤ r ∧ r + 1 < bound ∧ P r)

namespace IsFirst

variable {P : ℕ → Prop} {start bound r : ℕ}

/-- A position with `P` and nothing before it is the one found. -/
theorem eq_of_first (h : IsFirst P start bound r) {i : ℕ} (hstart : start ≤ i) (hi : i + 1 < bound)
    (hP : P i) (hfirst : ∀ j, start ≤ j → j < i → ¬P j) : r = i := by
  rcases h.found with hr | ⟨hsr, hrb, hPr⟩
  · exact absurd hP (h.none_before i hstart (by omega) hi)
  by_contra hne
  rcases lt_or_gt_of_ne hne with hlt | hgt
  · exact hfirst r hsr hlt hPr
  · exact h.none_before i hstart hgt hi hP

/-- Without a position with `P` the bound is returned. -/
theorem eq_bound (h : IsFirst P start bound r) (hnone : ∀ i, start ≤ i → i + 1 < bound → ¬P i) : r = bound := by
  rcases h.found with hr | ⟨hsr, hrb, hPr⟩
  · exact hr
  · exact absurd hPr (hnone r hsr hrb)

end IsFirst

variable {file : Bytes}

theorem magicAt_iff_holdsAt {i : ℕ} : MagicAt file i ↔ HoldsAt file i [magicByte0, magicByte1] := by
  rw [HoldsAt.iff_getElem?]
  constructor
  · rintro ⟨h0, h1⟩ k hk
    obtain rfl | rfl : k = 0 ∨ k = 1 := by simp at hk; omega
    · exact h0
    · exact h1
  · intro h
    exact ⟨h 0 (by decide), h 1 (by decide)⟩

theorem findMagic_eq_indexOf (buf : Bytes) : findMagic buf = indexOf [magicByte0, magicByte1] buf := by
  induction buf with
  | nil => rfl
  | cons a rest ih =>
    cases rest with
    | nil => simp [findMagic, indexOf]
    | cons b rest => simp [findMagic, indexOf, ih, @eq_comm _ a, @eq_comm _ b]

/-- The loop's early return on a short chunk does not show: the file or the segment ends there. -/
theorem nextMagicLoop_eq_searchFrom (start size fuel pos : ℕ) : nextMagicLoop file start size fuel pos =
      searchFrom [magicByte0, magicByte1] magicChunk file start size fuel pos := by
  induction fuel generalizing pos with
  | zero => rfl
  | succ fuel ih =>
    unfold nextMagicLoop searchFrom
    split
    · rfl
    simp only [findMagic_eq_indexOf, List.length_cons, List.length_nil, zero_add, Nat.add_one_sub_one]
    set end_ := min (pos + magicChunk) size with hend
    set readStart := if start < pos then pos - 1 else pos with hread
    have hrs : readStart ≤ pos ∧ pos ≤ readStart + 1 := by
      rw [hread]
      split <;> omega
    have hchunk : magicChunk = 4096 := rfl
    have hlen := readAt_length file readStart (end_ - readStart)
    cases hfind : indexOf [magicByte0, magicByte1] (readAt file readStart (end_ - readStart)) with
    | some k =>
      have hle := (indexOf_some (by simp) hfind).1.end_le (by simp)
      rw [if_neg (by simp at hle; omega)]
    | none =>
      split
      · refine (searchFrom_eq_size (by simp) fuel end_ fun i hi hb hm => ?_).symm
        have hle := hm.end_le (by simp)
        simp at hi hb hle
        omega
      · exact ih end_

/-- The magic search finds the first magic of the segment at or after `start`. -/
theorem nextMagicInSegment_isFirst (file : Bytes) (start size : ℕ) (hle : start ≤ size + 1) :
    IsFirst (MagicAt file) start size (nextMagicInSegment file start size) := by
  have hfirst : FirstIn file [magicByte0, magicByte1] start size
      (nextMagicInSegment file start size) := by
    rw [nextMagicInSegment, nextMagicLoop_eq_searchFrom]
    exact searchFrom_firstIn (by simp) (by decide) _ start (by omega) (.inl rfl)
      fun i hi hlt => by simp at hlt; omega
  refine ⟨fun i hi hlt hb hm => ?_, hfirst.found.imp_right fun h => ?_⟩
  · exact hfirst.none_before i hi hlt hb (magicAt_iff_holdsAt.mp hm)
  · exact ⟨h.1, h.2.1, magicAt_iff_holdsAt.mpr h.2.2⟩

theorem ValidAt.magicAt {i : ℕ} (h : ValidAt file i) : MagicAt file i := by
  unfold ValidAt verifyFrameAtBuffered at h
  dsimp only at h
  split at h
  · exact absurd h (by simp [Except.isOk, Except.toBool])
  next hlen =>
    unfold decodeHeader at h
    rw [if_neg hlen] at h
    split at h
    · exact absurd h (by simp [bind, Except.bind, Except.isOk, Except.toBool])
    next hmagic =>
      push Not at hmagic
      have h27 : headerSize = 27 := rfl
      have h0 := hmagic.1
      have h1 := hmagic.2
      rw [getElem?_readAt, if_pos (by omega)] at h0 h1
      exact ⟨h0, h1⟩

theorem nextValidLoop_isFirst {start size : ℕ} (fuel pos : ℕ)
    (hfuel : size < pos + fuel) (hpos : pos = size ∨ (start ≤ pos ∧ pos + 1 < size))
    (hbefore : ∀ i, start ≤ i → i < pos → i + 1 < size → ¬ValidAt file i) :
    IsFirst (ValidAt file) start size (nextValidLoop file size fuel pos) := by
  induction fuel generalizing pos with
  | zero => exact ⟨fun i hi hlt => hbefore i hi (by simp [nextValidLoop] at hlt; omega), .inl rfl⟩
  | succ fuel ih =>
    unfold nextValidLoop
    by_cases hend : size ≤ pos
    · rw [if_pos hend]
      exact ⟨fun i hi hlt hb => hbefore i hi (by omega) hb, .inl rfl⟩
    have hin : start ≤ pos ∧ pos + 1 < size := by omega
    rw [if_neg hend]
    by_cases hvalid : ValidAt file pos
    · rw [if_pos hvalid]
      exact ⟨hbefore, .inr ⟨hin.1, hin.2, hvalid⟩⟩
    rw [if_neg hvalid]
    have hfirst := nextMagicInSegment_isFirst file (pos + 1) size (by omega)
    refine ih _ ?_ ?_ fun i hi hlt hb hv => ?_
    · rcases hfirst.found with hr | ⟨hr, _, _⟩ <;> omega
    · rcases hfirst.found with hr | ⟨hr, hb, _⟩ <;> omega
    · rcases lt_trichotomy i pos with hcase | rfl | hcase
      · exact hbefore i hi hcase hb hv
      · exact hvalid hv
      · exact hfirst.none_before i hcase hlt hb hv.magicAt

/-- The frame search finds the first valid frame of the segment at or after `start`. -/
theorem nextValidFramePos_isFirst (file : Bytes) (start size : ℕ) (hle : start ≤ size + 1) :
    IsFirst (ValidAt file) start size (nextValidFramePos file start size) := by
  have hfirst := nextMagicInSegment_isFirst file start size hle
  refine nextValidLoop_isFirst _ _ ?_ ?_ fun i hi hlt hb hv => ?_
  · rcases hfirst.found with hr | ⟨hr, _, _⟩ <;> omega
  · rcases hfirst.found with hr | ⟨hr, hb, _⟩ <;> omega
  · exact hfirst.none_before i hi hlt hb hv.magicAt

end Narad.Storage
